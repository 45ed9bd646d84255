import Bazalt.Flow.Delivery

/-!
# The public calls

Between calls a half is idle: everything buffered is ahead of the next expected
byte and no FIN is ready.  `accept` stores the arriving payload, in the buffer or
straight into the output, and then walks a path; `acknowledge` and `finalize` only
walk a path.
-/

namespace Bazalt.Flow

open Lib OrdMap

/-- What holds of a half between calls, once it is initialized. -/
structure TcpHalf.Idle (h : TcpHalf) (n : ℕ) : Prop where
  sound : h.Sound n
  ahead : h.Ahead n
  waits : h.finConsumed = false → ∀ fin, h.pendingFin = some fin →
    n < fin ∨ fin = n ∧ h.pendingFinRequiresAck = true ∧ h.acked fin = false

/-- A half in some run: untouched, or initialized and idle. -/
def TcpHalf.Settled (h : TcpHalf) : Prop := h = {} ∨ ∃ n, h.Idle n

theorem TcpHalf.Ahead.of_empty {h : TcpHalf} (hempty : h.outOfOrder.entries = []) (n : ℕ) :
    h.Ahead n := by
  simp [TcpHalf.Ahead, hempty]

namespace Pass

/-! ## Storing a payload -/

/-- The place of a contiguous payload from which on it is new, when part of it is. -/
theorem satAdd_overlap {start n : ℕ} (hle : start ≤ n) (hmax : n ≤ u64Max) :
    satAdd start (n - start) = n := by
  rw [satAdd_of_le (by omega)]
  omega

/-- What `acceptData` does with the payload at `start` before any recovery, when `n`
is expected. -/
inductive Stores (w : Pass) (n start tsNs : ℕ) (data : Bytes) : Pass → Prop
  | nothing : data = [] → Stores w n start tsNs data w
  | buffer {w' : Pass} {lo : ℕ} :
      data ≠ [] → (n < start ∨ w.half.outOfOrder.entries ≠ []) →
      (lo = start ∧ (n < start ∨ start = n ∨ start + data.length ≤ n) ∨
        lo = n ∧ start < n ∧ n < start + data.length) →
      Inserts w w' lo (satAdd start data.length)
        (segmentBytes start data lo (satAdd start data.length)) →
      Stores w n start tsNs data w'
  | direct {w' : Pass} :
      start ≤ n → n < start + data.length → w.half.outOfOrder.entries = [] →
      (w' = w ∨ w' = w.markRetransmit) →
      Stores w n start tsNs data (w'.push (data.drop (n - start)) tsNs)
  | replay :
      data ≠ [] → start + data.length ≤ n → w.half.outOfOrder.entries = [] →
      Stores w n start tsNs data (w.markRetransmit.push data tsNs)

theorem Inserts.sound {w w' : Pass} {lo hi n : ℕ} {new : ℕ → UInt8 → Prop}
    (h : Inserts w w' lo hi new) (hw : w.half.Sound n) (hfin : w.half.finConsumed = false)
    (hside : n ≤ lo ∨ hi ≤ n) : w'.half.Sound n := by
  have hfin' : ¬ w'.half.finConsumed = true := by
    rw [h.half]
    simpa using hfin
  refine ⟨?_, h.buffered, hw.le, ?_, ?_, ?_, fun hc ↦ absurd hc hfin',
    fun hc ↦ absurd hc hfin'⟩
  · rw [h.half]
    exact hw.next
  · rw [h.half]
    exact hw.offset_le
  · rw [h.half]
    exact hw.fin_le
  · intro e he
    rcases h.adds e he with he | ⟨hlo, hhi⟩
    · exact hw.sides e he
    · omega

theorem push_sound {w : Pass} {n : ℕ} (hw : w.half.Sound n)
    (hempty : w.half.outOfOrder.entries = []) (hfin : w.half.finConsumed = false)
    (data : Bytes) (tsNs : ℕ) :
    (w.push data tsNs).half.Sound (satAdd n data.length) := by
  have hb := hw.buffered
  refine ⟨?_, ⟨hb.tidy, hb.bound, hb.bytes⟩, satAdd_le _ _, ?_, hw.fin_le, ?_, ?_, ?_⟩
  · change w.half.nextAbs.map _ = _
    rw [hw.next, Option.map_some]
  · exact min_le_min_right _ (Nat.add_le_add_right hw.offset_le _)
  · intro e he
    change e ∈ w.half.outOfOrder.entries at he
    simp [hempty] at he
  · exact fun _ ↦ hempty
  · exact fun hc ↦ absurd hc (by simp [push, hfin])

theorem Stores.sound {w w' : Pass} {n start tsNs : ℕ} {data : Bytes}
    (h : Stores w n start tsNs data w') (hw : w.half.Sound n)
    (hfin : w.half.finConsumed = false) : ∃ n', n ≤ n' ∧ w'.half.Sound n' := by
  cases h with
  | nothing => exact ⟨n, le_rfl, hw⟩
  | buffer hne hcase hlo hins =>
      refine ⟨n, le_rfl, hins.sound hw hfin ?_⟩
      have hsat := satAdd_le_add start data.length
      omega
  | direct hle hlt hempty hmark =>
      rcases hmark with rfl | rfl
      · exact ⟨_, le_satAdd hw.le, push_sound hw hempty hfin _ _⟩
      · exact ⟨_, le_satAdd hw.le, push_sound (w := w.markRetransmit) hw hempty hfin _ _⟩
  | replay hne hle hempty =>
      exact ⟨_, le_satAdd hw.le, push_sound (w := w.markRetransmit) hw hempty hfin _ _⟩

theorem Stores.half_frame {w w' : Pass} {n start tsNs : ℕ} {data : Bytes}
    (h : Stores w n start tsNs data w') :
    w'.half.finConsumed = w.half.finConsumed ∧ w'.half.pendingFin = w.half.pendingFin ∧
      w'.half.pendingFinRequiresAck = w.half.pendingFinRequiresAck ∧
      w'.half.peerAckAbs = w.half.peerAckAbs := by
  cases h with
  | nothing => exact ⟨rfl, rfl, rfl, rfl⟩
  | buffer hne hcase hlo hins =>
      rw [hins.half]
      exact ⟨rfl, rfl, rfl, rfl⟩
  | direct hle hlt hempty hmark =>
      rcases hmark with rfl | rfl
      · exact ⟨rfl, rfl, rfl, rfl⟩
      · exact ⟨rfl, rfl, rfl, rfl⟩
  | replay hne hle hempty => exact ⟨rfl, rfl, rfl, rfl⟩

theorem acceptAhead_stores {w : Pass} {n start : ℕ} {data : Bytes} (hb : w.half.Buffered)
    (hlt : n < start) (hne : data ≠ []) (tsNs : ℕ) :
    Stores w n start tsNs data (w.acceptAhead start tsNs data) := by
  have hins : Inserts _ (w.acceptAhead start tsNs data) start (satAdd start data.length)
      (segmentBytes start data start (satAdd start data.length)) :=
    insertOooFirstSeen_inserts (w := { w with out := { w.out with outOfOrder := true } }) hb
      start tsNs data
  refine .buffer hne (.inl hlt) (.inl ⟨rfl, .inl hlt⟩) ?_
  exact ⟨hins.half, hins.out, hins.buffered, hins.held, hins.keeps, hins.adds⟩

/-- A payload of which the part from `n` on is new goes into the buffer from `n` on. -/
theorem insertTail_inserts {w : Pass} (hb : w.half.Buffered) {n start : ℕ}
    (hle : start ≤ n) (hmax : n ≤ u64Max) (tsNs : ℕ) (data : Bytes) :
    Inserts w (w.insertOooFirstSeen (satAdd start (n - start)) tsNs (data.drop (n - start)))
      n (satAdd n (data.length - (n - start)))
      (segmentBytes start data n (satAdd n (data.length - (n - start)))) := by
  rw [satAdd_overlap hle hmax]
  have hins := insertOooFirstSeen_inserts hb n tsNs (data.drop (n - start))
  rw [List.length_drop] at hins
  refine ⟨hins.half, hins.out, hins.buffered, ?_, hins.keeps, hins.adds⟩
  intro p b
  rw [hins.held]
  refine or_congr Iff.rfl (and_congr Iff.rfl ?_)
  simp only [segmentBytes, List.getElem?_drop]
  refine and_congr_right fun hp ↦ ?_
  rw [show n - start + (p - n) = p - start by omega]

theorem emit_trail {w : Pass} {data : Bytes} (hne : data ≠ []) (tsNs : ℕ) :
    Trail (w.push data tsNs) (w.emit data tsNs) := by
  rw [emit_of_ne_nil w tsNs hne]
  exact .single (.fin _)

theorem Inserts.of_marked {w w₀ w' : Pass} {lo hi : ℕ} {new : ℕ → UInt8 → Prop}
    (hmark : w₀ = w ∨ w₀ = w.markRetransmit) (h : Inserts w₀ w' lo hi new) :
    Inserts w w' lo hi new := by
  rcases hmark with rfl | rfl
  · exact h
  · exact h.of_markRetransmit

theorem acceptContiguous_trail {w : Pass} {n start : ℕ} {data : Bytes} (hw : w.half.Sound n)
    (hfin : w.half.finConsumed = false) (hle : start ≤ n) (hne : data ≠ []) (tsNs : ℕ) :
    ∃ w₁, Stores w n start tsNs data w₁ ∧
      Trail w₁ (w.acceptContiguous start n tsNs data).1 := by
  have hlen : 0 < data.length := List.length_pos_iff.mpr hne
  have hmark := (ite_eq_or_eq (start < n) w.markRetransmit w).symm
  have hstart : (if start < n ∧ n - start < data.length then n - start else 0) =
      if n < start + data.length then n - start else 0 := by
    split_ifs <;> omega
  unfold acceptContiguous
  simp only [hstart]
  generalize hw₀ : (if start < n then w.markRetransmit else w) = w₀ at hmark ⊢
  have hhalf : w₀.half = w.half := by
    rcases hmark with rfl | rfl
    · rfl
    · rfl
  by_cases hnew : n < start + data.length
  · rw [if_pos hnew, if_pos (show n - start < data.length by omega), hhalf]
    have hdrop : data.drop (n - start) ≠ [] := by
      rw [ne_eq, List.drop_eq_nil_iff]
      omega
    split_ifs with hempty
    · exact ⟨_, .direct hle hnew (isEmpty_iff.mp hempty) hmark, emit_trail hdrop tsNs⟩
    · have hins := Inserts.of_marked hmark <|
        insertTail_inserts (w := w₀) (hhalf ▸ hw.buffered) hle hw.le tsNs data
      have hend : satAdd n (data.length - (n - start)) = satAdd start data.length := by
        unfold satAdd
        omega
      rw [hend] at hins
      have hplace : n = start ∧ (n < start ∨ start = n ∨ start + data.length ≤ n) ∨
          n = n ∧ start < n ∧ n < start + data.length := by omega
      have hstores : Stores w n start tsNs data _ :=
        .buffer hne (.inr fun h ↦ hempty (isEmpty_iff.mpr h)) hplace hins
      obtain ⟨m, -, hm⟩ := hstores.sound hw hfin
      exact ⟨_, hstores, flushOoo_trail hm⟩
  · rw [if_neg hnew, if_pos hlen, hhalf]
    have hw₀' : w₀ = w.markRetransmit := by
      rw [← hw₀, if_pos (by omega)]
    subst hw₀'
    split_ifs with hempty
    · exact ⟨_, .replay hne (by omega) (isEmpty_iff.mp hempty), emit_trail hne tsNs⟩
    · have hsat : satAdd start 0 = start := satAdd_of_le (by have := hw.le; omega)
      have hins := (insertOooFirstSeen_inserts (w := w.markRetransmit) hw.buffered start tsNs
        data).of_markRetransmit
      have hstores : Stores w n start tsNs data _ :=
        .buffer hne (.inr fun h ↦ hempty (isEmpty_iff.mpr h)) (.inl ⟨rfl, by omega⟩) hins
      obtain ⟨m, -, hm⟩ := hstores.sound hw hfin
      rw [hsat]
      exact ⟨_, hstores, flushOoo_trail hm⟩

theorem recover_trail {w : Pass} {n : ℕ} (hw : w.half.Sound n) (maxOoo maxSegments : ℕ) :
    Trail w (w.recoverKnownAck.recoverOooPressure maxOoo maxSegments) := by
  have hack := recoverKnownAck_trail hw
  obtain ⟨m, -, hm⟩ := hack.sound hw
  exact hack.trans (recoverOooPressure_trail hm maxOoo maxSegments)

theorem acceptData_trail {w : Pass} {n : ℕ} (hw : w.half.Sound n)
    (hfin : w.half.finConsumed = false) (start tsNs : ℕ) (data : Bytes) (lim : Limits) :
    ∃ w₁, Stores w n start tsNs data w₁ ∧ Trail w₁ (w.acceptData start n tsNs data lim) := by
  unfold acceptData
  simp only
  split_ifs with hempty hahead
  · exact ⟨w, .nothing (List.isEmpty_iff.mp hempty), .refl⟩
  · have hstores := acceptAhead_stores hw.buffered hahead (by simpa using hempty) tsNs
    obtain ⟨m, -, hm⟩ := hstores.sound hw hfin
    exact ⟨_, hstores, recover_trail hm _ _⟩
  · obtain ⟨w₁, hstores, hpath⟩ := acceptContiguous_trail hw hfin (not_lt.mp hahead)
      (by simpa using hempty) tsNs
    refine ⟨w₁, hstores, ?_⟩
    obtain ⟨m, -, hm⟩ := hstores.sound hw hfin
    split
    · rename_i w₂ heq
      rw [heq] at hpath
      obtain ⟨k, -, hk⟩ := hpath.sound hm
      exact hpath.trans (recover_trail hk _ _)
    · rename_i w₂ heq
      rwa [heq] at hpath

/-! ## Coming to rest -/

theorem recoverOooTimeout_ahead {w : Pass} {n n' : ℕ} (hw : w.half.Sound n)
    (maxAgeNs tsNs : ℕ) (hn' : (w.recoverOooTimeout maxAgeNs tsNs).half.Sound n') :
    (w.recoverOooTimeout maxAgeNs tsNs).half.Ahead n' := by
  unfold recoverOooTimeout at hn' ⊢
  rw [hw.next] at hn' ⊢
  cases hfirst : w.half.outOfOrder.first? with
  | none => exact TcpHalf.Ahead.of_empty (first?_eq_none.mp hfirst) n'
  | some e =>
      simp only [hfirst] at hn' ⊢
      split_ifs at hn' ⊢ with hle
      · have hstamp : Trail w (w.stamp none) := .single (.stamp w none)
        obtain ⟨m, -, hm⟩ := hstamp.sound hw
        exact flushOoo_ahead hm hn'
      · have hahead : w.half.Ahead n := fun a ha ↦
          (not_le.mp hle).trans_le (first?_le hfirst ha)
        cases hstart : w.half.gapStartedTsNs with
        | none =>
            simp only [hstart] at hn' ⊢
            obtain rfl : n' = n := hn'.next_unique hw.next
            exact hahead
        | some started =>
            simp only [hstart] at hn' ⊢
            split_ifs at hn' ⊢ with hage
            · obtain rfl : n' = n := hn'.next_unique hw.next
              exact hahead
            · have hgap := gapToFirst_trail hw hfirst le_rfl
              rw [if_pos (not_le.mp hle)] at hgap
              obtain ⟨m, -, hm⟩ := hgap.sound hw
              obtain ⟨k, -, hk⟩ := (flushOoo_trail hm).sound hm
              have hrest := flushOoo_ahead hm hk
              generalize (w.emitGapTo e.1).flushOoo = f at hk hrest hn' ⊢
              have hn : k = n' := by
                refine hk.next_unique (hn'.next ▸ ?_)
                split
                · split_ifs <;> rfl
                · rfl
              subst hn
              split
              · split_ifs
                · exact hrest
                · exact hrest
              · exact hrest

/-- `consumeFinIfReady` closes the half, or leaves it with no FIN that is ready. -/
theorem consumeFinIfReady_cases {w : Pass} {n : ℕ} (hw : w.half.Sound n) :
    (∃ fin, w.half.pendingFin = some fin ∧ w.consumeFinIfReady = w.closeAt fin n) ∨
      w.consumeFinIfReady = w ∧ (w.half.finConsumed = false →
        ∀ fin, w.half.pendingFin = some fin →
          n < fin ∨ fin = n ∧ w.half.pendingFinRequiresAck = true ∧ w.half.acked fin = false) := by
  unfold consumeFinIfReady
  rw [hw.next]
  split_ifs with hfin
  · exact .inr ⟨rfl, by simp [hfin]⟩
  · cases hpend : w.half.pendingFin with
    | none => exact .inr ⟨rfl, by simp⟩
    | some fin =>
        simp only [Option.some.injEq, forall_eq']
        split_ifs with hle hwait
        · exact .inr ⟨rfl, fun _ ↦ .inr ⟨hwait.1, hwait.2.1, by simpa using hwait.2.2⟩⟩
        · exact .inl ⟨fin, rfl, rfl⟩
        · exact .inr ⟨rfl, fun _ ↦ .inl (not_le.mp hle)⟩

theorem consumeFinIfReady_idle {w : Pass} {n : ℕ} (hw : w.half.Sound n)
    (hahead : w.half.Ahead n) : ∃ n', n ≤ n' ∧ w.consumeFinIfReady.half.Idle n' := by
  obtain ⟨n', hle, hs⟩ := (consumeFinIfReady_path w).sound hw
  refine ⟨n', hle, hs, ?_, ?_⟩
  · rcases consumeFinIfReady_cases hw with ⟨fin, -, heq⟩ | ⟨heq, -⟩
    · rw [heq]
      exact TcpHalf.Ahead.of_empty rfl n'
    · rw [heq] at hs ⊢
      exact hw.next_unique hs.next ▸ hahead
  · rcases consumeFinIfReady_cases hw with ⟨fin, -, heq⟩ | ⟨heq, hwait⟩
    · rw [heq]
      intro hc
      simp [closeAt] at hc
    · rw [heq] at hs ⊢
      exact hw.next_unique hs.next ▸ hwait

end Pass

/-! ## FIN marking and truncation -/

namespace TcpHalf

/-- `h'` differs from `h` in its FIN marker alone, which is the old one, none, or
`endAbs`. -/
structure Remarked (h h' : TcpHalf) (endAbs : ℕ) : Prop where
  half : h' = { h with
    pendingFin := h'.pendingFin, pendingFinRequiresAck := h'.pendingFinRequiresAck }
  fin : ∀ fin, h'.pendingFin = some fin → h.pendingFin = some fin ∨ fin = endAbs

theorem Remarked.refl (h : TcpHalf) (endAbs : ℕ) : Remarked h h endAbs :=
  ⟨rfl, fun _ hf ↦ .inl hf⟩

theorem Remarked.trans {h h' h'' : TcpHalf} {endAbs : ℕ} (h₁ : Remarked h h' endAbs)
    (h₂ : Remarked h' h'' endAbs) : Remarked h h'' endAbs := by
  refine ⟨?_, fun fin hf ↦ ?_⟩
  · rw [h₂.half, h₁.half]
  · rcases h₂.fin fin hf with hf | hf
    · exact h₁.fin fin hf
    · exact .inr hf

theorem Remarked.sound {h h' : TcpHalf} {n endAbs : ℕ} (hr : Remarked h h' endAbs)
    (hs : h.Sound n) (hfin : h.finConsumed = false) (hend : endAbs ≤ u64Max) :
    h'.Sound n := by
  have hmark : ∀ fin, h'.pendingFin = some fin → fin ≤ u64Max := by
    intro fin hf
    rcases hr.fin fin hf with hf | rfl
    · exact hs.fin_le fin hf
    · exact hend
  have hb := hs.buffered
  rw [hr.half] at hmark ⊢
  refine ⟨hs.next, ⟨hb.tidy, hb.bound, hb.bytes⟩, hs.le, hs.offset_le, hmark, hs.sides,
    hs.closed, ?_⟩
  exact fun hc ↦ absurd hc (by simp [hfin])

theorem markFin_remarked (h : TcpHalf) (startAbs endAbs expected : ℕ) :
    Remarked h (h.markFin startAbs endAbs expected) endAbs := by
  unfold markFin
  split
  · exact ⟨rfl, fun fin hf ↦ .inr (Option.some.inj hf).symm⟩
  · rename_i existing hpend
    split_ifs
    · exact ⟨rfl, fun fin hf ↦ .inl hf⟩
    · exact ⟨rfl, fun fin hf ↦ .inr (Option.some.inj hf).symm⟩
    · exact .refl h endAbs

end TcpHalf

theorem Pass.truncateAtFin_spec (w : Pass) (startAbs endAbs : ℕ) (data : Bytes) :
    TcpHalf.Remarked w.half (w.truncateAtFin startAbs endAbs data).1.half endAbs ∧
      (w.truncateAtFin startAbs endAbs data).1.out =
        { w.out with retransmit := (w.truncateAtFin startAbs endAbs data).1.out.retransmit } ∧
      ∃ k, (w.truncateAtFin startAbs endAbs data).2 = data.take k := by
  unfold truncateAtFin
  split
  · exact ⟨.refl _ _, rfl, data.length, by simp⟩
  · rename_i fin hpend
    split_ifs
    · exact ⟨⟨rfl, by simp⟩, rfl, data.length, by simp⟩
    · exact ⟨.refl _ _, rfl, 0, by simp⟩
    · exact ⟨.refl _ _, rfl, 0, by simp⟩
    · exact ⟨.refl _ _, rfl, fin - startAbs, rfl⟩
    · exact ⟨.refl _ _, rfl, data.length, by simp⟩

namespace TcpHalf

@[simp] theorem arrive_expected (h : TcpHalf) (seq : BitVec 32) (syn fin : Bool) (data : Bytes)
    (n : ℕ) : (h.arrive seq syn fin data n).expected = n := rfl

@[simp] theorem arrive_startAbs (h : TcpHalf) (seq : BitVec 32) (syn fin : Bool) (data : Bytes)
    (n : ℕ) : (h.arrive seq syn fin data n).startAbs = extendSeq (payloadSeq seq syn) n := rfl

theorem arrive_remarked (h : TcpHalf) (seq : BitVec 32) (syn fin : Bool) (data : Bytes)
    (n : ℕ) : Remarked h (h.arrive seq syn fin data n).pass.half
      (satAdd (extendSeq (payloadSeq seq syn) n) data.length) := by
  have hcut := fun w ↦ (Pass.truncateAtFin_spec w (extendSeq (payloadSeq seq syn) n)
    (satAdd (extendSeq (payloadSeq seq syn) n) data.length) data).1
  refine Remarked.trans ?_ (hcut _)
  simp only
  split_ifs
  · exact markFin_remarked _ _ _ _
  · exact .refl _ _

theorem arrive_out (h : TcpHalf) (seq : BitVec 32) (syn fin : Bool) (data : Bytes) (n : ℕ) :
    (h.arrive seq syn fin data n).pass.out =
      { retransmit := (h.arrive seq syn fin data n).pass.out.retransmit } :=
  (Pass.truncateAtFin_spec _ _ _ _).2.1

theorem arrive_data (h : TcpHalf) (seq : BitVec 32) (syn fin : Bool) (data : Bytes) (n : ℕ) :
    ∃ k, (h.arrive seq syn fin data n).data = data.take k :=
  (Pass.truncateAtFin_spec _ _ _ _).2.2

theorem arrive_sound {h : TcpHalf} {n : ℕ} (hs : h.Sound n) (hfin : h.finConsumed = false)
    (seq : BitVec 32) (syn fin : Bool) (data : Bytes) :
    (h.arrive seq syn fin data n).pass.half.Sound n :=
  (h.arrive_remarked seq syn fin data n).sound hs hfin (satAdd_le _ _)

end TcpHalf

/-! ## Summaries -/

namespace Pass

theorem rest_trail {w : Pass} {n : ℕ} (hw : w.half.Sound n) (maxAgeNs tsNs : ℕ) :
    Trail w (w.recoverOooTimeout maxAgeNs tsNs).consumeFinIfReady ∧
      ∃ n', n ≤ n' ∧ (w.recoverOooTimeout maxAgeNs tsNs).consumeFinIfReady.half.Idle n' := by
  have hpath := recoverOooTimeout_trail hw maxAgeNs tsNs
  obtain ⟨m, hnm, hm⟩ := hpath.sound hw
  obtain ⟨n', hmn', hidle⟩ :=
    consumeFinIfReady_idle hm (recoverOooTimeout_ahead hw maxAgeNs tsNs hm)
  exact ⟨hpath.tail (.fin _), n', hnm.trans hmn', hidle⟩

end Pass

/-- What `accept` does after it has stored the payload and recovered. -/
theorem Arrival.settle_rest (a : Arrival) {tsNs n : ℕ} {lim : Limits}
    (h : (a.pass.acceptData a.startAbs a.expected tsNs a.data lim).half.Sound n) :
    Pass.Trail (a.pass.acceptData a.startAbs a.expected tsNs a.data lim) (a.settle tsNs lim) ∧
      ∃ n', n ≤ n' ∧ (a.settle tsNs lim).half.Idle n' := by
  unfold settle
  simp only
  generalize a.pass.acceptData a.startAbs a.expected tsNs a.data lim = w at h ⊢
  have hack : Pass.Trail w (if w.half.pendingFin.isSome ∧ ¬ w.half.finConsumed then
      w.recoverKnownAck else w) := by
    split_ifs
    · exact Pass.recoverKnownAck_trail h
    · exact .refl
  generalize (if w.half.pendingFin.isSome ∧ ¬ w.half.finConsumed then
      w.recoverKnownAck else w) = w' at hack ⊢
  obtain ⟨m, hnm, hm⟩ := hack.sound h
  obtain ⟨hrest, n', hmn', hidle⟩ := Pass.rest_trail hm lim.gapTimeoutNs tsNs
  exact ⟨hack.trans hrest, n', hnm.trans hmn', hidle⟩

theorem Arrival.settle_trail {a : Arrival} (hs : a.pass.half.Sound a.expected)
    (hfin : a.pass.half.finConsumed = false) (tsNs : ℕ) (lim : Limits) :
    (∃ w₁, Pass.Stores a.pass a.expected a.startAbs tsNs a.data w₁ ∧
      Pass.Trail w₁ (a.settle tsNs lim)) ∧
      ∃ n', a.expected ≤ n' ∧ (a.settle tsNs lim).half.Idle n' := by
  obtain ⟨w₁, hstores, hdata⟩ := Pass.acceptData_trail hs hfin a.startAbs tsNs a.data lim
  obtain ⟨n₁, hle₁, h₁⟩ := hstores.sound hs hfin
  obtain ⟨n₂, hle₂, h₂⟩ := hdata.sound h₁
  obtain ⟨hrest, n', hle', hidle⟩ := a.settle_rest h₂
  exact ⟨⟨w₁, hstores, hdata.trans hrest⟩, n', by omega, hidle⟩

theorem Pass.finalizeLoop_ahead (fuel : ℕ) : ∀ (w : Pass) (n : ℕ), w.half.Sound n →
    w.half.Ahead n → ∀ {n'}, (finalizeLoop fuel w).half.Sound n' →
      (finalizeLoop fuel w).half.Ahead n' := by
  induction fuel with
  | zero =>
      intro w n hw hahead n' hn'
      exact hw.next_unique hn'.next ▸ hahead
  | succ fuel ih =>
      intro w n hw hahead n' hn'
      unfold finalizeLoop at hn' ⊢
      rw [hw.next] at hn' ⊢
      cases hfirst : w.half.outOfOrder.first? with
      | none =>
          simp only [hfirst] at hn' ⊢
          exact hw.next_unique hn'.next ▸ hahead
      | some e =>
          have hgap := gapToFirst_trail hw hfirst le_rfl
          simp only [hfirst] at hn' ⊢
          generalize (if n < e.1 then w.emitGapTo e.1 else w) = gapped at hgap hn' ⊢
          obtain ⟨m, -, hm⟩ := hgap.sound hw
          obtain ⟨k, -, hk⟩ := (flushOoo_trail hm).sound hm
          have hrest := flushOoo_ahead hm hk
          by_cases hstop : gapped.flushOoo.half.finConsumed ∨
              gapped.flushOoo.half.nextAbs = gapped.half.nextAbs ∧
                gapped.flushOoo.half.outOfOrderBytes = gapped.half.outOfOrderBytes
          · rw [if_pos hstop] at hn' ⊢
            exact hk.next_unique hn'.next ▸ hrest
          · rw [if_neg hstop] at hn' ⊢
            exact ih _ k hk hrest hn'

namespace TcpHalf

theorem Idle.stamp {h : TcpHalf} {n : ℕ} (hi : h.Idle n) (ts : Option ℕ) :
    ({ h with gapStartedTsNs := ts }).Idle n := by
  have hs := hi.sound
  have hb := hs.buffered
  exact ⟨⟨hs.next, ⟨hb.tidy, hb.bound, hb.bytes⟩, hs.le, hs.offset_le, hs.fin_le, hs.sides,
    hs.closed, hs.past⟩, hi.ahead, hi.waits⟩

theorem finalize_trail {h : TcpHalf} {n : ℕ} (hi : h.Idle n) :
    Pass.Trail { half := h } h.finalize ∧ ∃ n', n ≤ n' ∧ h.finalize.half.Idle n' := by
  have hloop := Pass.finalizeLoop_trail (h.outOfOrder.size + 1) { half := h } n hi.sound
  obtain ⟨m, hnm, hm⟩ := hloop.sound hi.sound
  have hahead := Pass.finalizeLoop_ahead _ { half := h } n hi.sound hi.ahead hm
  obtain ⟨n', hmn', hidle⟩ := Pass.consumeFinIfReady_idle hm hahead
  refine ⟨?_, n', hnm.trans hmn', hidle.stamp none⟩
  exact (hloop.tail (.fin _)).tail (.stamp _ none)

theorem recordAck_eq (h : TcpHalf) (ackAbs expected : ℕ) :
    h.recordAck ackAbs expected =
      { h with peerAckAbs := (h.recordAck ackAbs expected).peerAckAbs } := by
  unfold recordAck
  split_ifs <;> rfl

theorem recordAck_acked (h : TcpHalf) (ackAbs expected : ℕ) {f : ℕ}
    (hf : h.acked f = true) : (h.recordAck ackAbs expected).acked f = true := by
  unfold recordAck
  split_ifs with hnew
  · cases hpeer : h.peerAckAbs with
    | none => simp [acked, hpeer] at hf
    | some current =>
        have hlt := hnew.2 current hpeer
        simp only [acked, hpeer, decide_eq_true_eq] at hf ⊢
        omega
  · exact hf

theorem Sound.recordAck {h : TcpHalf} {n : ℕ} (hs : h.Sound n) (ackAbs expected : ℕ) :
    (h.recordAck ackAbs expected).Sound n := by
  have hb := hs.buffered
  rw [recordAck_eq]
  exact ⟨hs.next, ⟨hb.tidy, hb.bound, hb.bytes⟩, hs.le, hs.offset_le, hs.fin_le, hs.sides,
    hs.closed, hs.past⟩

theorem acknowledge_trail {h : TcpHalf} {n : ℕ} (hi : h.Idle n) (ack : BitVec 32)
    (tsNs gapTimeoutNs : ℕ) :
    Pass.Trail { half := h.recordAck (extendSeq ack n) n } (h.acknowledge ack tsNs gapTimeoutNs) ∧
      ∃ n', n ≤ n' ∧ (h.acknowledge ack tsNs gapTimeoutNs).half.Idle n' := by
  have hs := hi.sound.recordAck (extendSeq ack n) n
  unfold acknowledge
  split
  · rename_i hnone
    simp [hi.sound.next] at hnone
  · rename_i expected hnext
    obtain rfl := hi.sound.next_unique hnext
    simp only
    split_ifs with hquiet
    · refine ⟨.refl, n, le_rfl, hs, ?_, ?_⟩
      · exact Ahead.of_empty (isEmpty_iff.mp hquiet.1) n
      · intro _ fin hf
        have hnone := Option.isNone_iff_eq_none.mp hquiet.2
        exact absurd (hnone.symm.trans hf) (by simp)
    · have hack := Pass.recoverKnownAck_trail (w := { half := h.recordAck (extendSeq ack n) n }) hs
      obtain ⟨m, hnm, hm⟩ := hack.sound hs
      obtain ⟨hrest, n', hmn', hidle⟩ := Pass.rest_trail hm gapTimeoutNs tsNs
      exact ⟨hack.trans hrest, n', hnm.trans hmn', hidle⟩

theorem observe_eq (h : TcpHalf) {n : ℕ} (hn : h.nextAbs = some n) (seq : BitVec 32)
    (syn : Bool) : h.observe seq syn =
      { h with initialSynSeq := (h.observe seq syn).initialSynSeq } := by
  have hsome : h.nextAbs.isNone = false := by simp [hn]
  simp only [observe, hsome, Bool.false_eq_true, if_false]
  split_ifs <;> rfl

theorem Idle.observe {h : TcpHalf} {n : ℕ} (hi : h.Idle n) (seq : BitVec 32) (syn : Bool) :
    (h.observe seq syn).Idle n := by
  have hs := hi.sound
  have hb := hs.buffered
  rw [observe_eq h hs.next]
  exact ⟨⟨hs.next, ⟨hb.tidy, hb.bound, hb.bytes⟩, hs.le, hs.offset_le, hs.fin_le, hs.sides,
    hs.closed, hs.past⟩, hi.ahead, hi.waits⟩

/-- The first observed segment fixes the origin of the stream. -/
theorem observe_fresh (seq : BitVec 32) (syn : Bool) :
    (({} : TcpHalf).observe seq syn).Idle (initialSeqEpoch + (payloadSeq seq syn).toNat) := by
  have heq : ({} : TcpHalf).observe seq syn =
      { nextAbs := some (initialSeqEpoch + (payloadSeq seq syn).toNat)
        initialSynSeq := if syn then some seq else none } := by
    cases syn <;> rfl
  have hlt := (payloadSeq seq syn).isLt
  rw [heq]
  refine ⟨⟨rfl, ⟨tidy_empty, by simp, rfl⟩, ?_, by simp, by simp, by simp, by simp, by simp⟩,
    Ahead.of_empty rfl _, by simp⟩
  unfold initialSeqEpoch u64Max
  omega

theorem observe_observe (h : TcpHalf) (seq : BitVec 32) (syn : Bool) :
    (h.observe seq syn).observe seq syn = h.observe seq syn := by
  unfold observe
  cases syn <;> cases hn : h.nextAbs <;> cases hi : h.initialSynSeq <;> simp [hn, hi]

/-- The half a call works on: `accept` observes its segment first. -/
def primed (h : TcpHalf) : Call → TcpHalf
  | .observe seq syn => h.observe seq syn
  | .accept seq syn _ _ _ _ => h.observe seq syn
  | _ => h

/-- Observing a segment touches two fields, the first of them only when it is unset. -/
theorem primed_eq (h : TcpHalf) (c : Call) : h.primed c =
    { h with nextAbs := (h.primed c).nextAbs, initialSynSeq := (h.primed c).initialSynSeq } := by
  have hobs : ∀ seq syn, h.observe seq syn =
      { h with
        nextAbs := (h.observe seq syn).nextAbs
        initialSynSeq := (h.observe seq syn).initialSynSeq } := by
    intro seq syn
    unfold observe
    simp only
    split_ifs <;> rfl
  cases c with
  | observe seq syn => exact hobs seq syn
  | accept seq syn fin tsNs data lim => exact hobs seq syn
  | acknowledge ack tsNs gapTimeoutNs => rfl
  | rstMatchesNext seq => rfl
  | finalize tsNs => rfl

theorem acked_primed (h : TcpHalf) (c : Call) (f : ℕ) : (h.primed c).acked f = h.acked f := by
  rw [primed_eq]
  rfl

theorem step_primed (h : TcpHalf) (c : Call) : (h.primed c).step c = h.step c := by
  cases c with
  | observe seq syn => simp [primed, step, observe_observe]
  | accept seq syn fin tsNs data lim => simp [primed, step, accept, observe_observe]
  | acknowledge => rfl
  | rstMatchesNext => rfl
  | finalize => rfl

/-- `h'` differs from `h` in what `observe` and an acknowledgement record. -/
def Noted (h h' : TcpHalf) : Prop :=
  h' = { h with peerAckAbs := h'.peerAckAbs, initialSynSeq := h'.initialSynSeq }

theorem Noted.sound {h h' : TcpHalf} {n : ℕ} (hn : Noted h h') (hs : h.Sound n) :
    h'.Sound n := by
  have hb := hs.buffered
  rw [hn]
  exact ⟨hs.next, ⟨hb.tidy, hb.bound, hb.bytes⟩, hs.le, hs.offset_le, hs.fin_le, hs.sides,
    hs.closed, hs.past⟩

theorem observe_noted {h : TcpHalf} {n : ℕ} (hn : h.nextAbs = some n) (seq : BitVec 32)
    (syn : Bool) : Noted h (h.observe seq syn) := by
  rw [Noted, observe_eq h hn]

/-- What a call does to an idle half. -/
inductive Does (h : TcpHalf) (n : ℕ) : Call → Pass → Prop
  | walk {c : Call} {w w' : Pass} : Noted h w.half →
      (∀ f, h.acked f = true → w.half.acked f = true) →
      w.out.emitted = [] → w.out.gaps = [] →
      (h.finConsumed = true ∨ ∀ seq syn fin tsNs data lim,
        c ≠ .accept seq syn fin tsNs data lim) →
      Pass.Path w w' → Does h n c w'
  | store {seq : BitVec 32} {syn fin : Bool} {tsNs : ℕ} {data : Bytes} {lim : Limits}
      {w w' : Pass} : h.finConsumed = false →
      Pass.Stores (h.arrive seq syn fin data n).pass n (extendSeq (payloadSeq seq syn) n) tsNs
        (h.arrive seq syn fin data n).data w →
      Pass.Path w w' → Does h n (.accept seq syn fin tsNs data lim) w'

/-- The same with the steps as the code takes them. -/
inductive Treads (h : TcpHalf) (n : ℕ) : Call → Pass → Prop
  | walk {c : Call} {w w' : Pass} : Noted h w.half →
      (∀ f, h.acked f = true → w.half.acked f = true) →
      w.out.emitted = [] → w.out.gaps = [] →
      (h.finConsumed = true ∨ ∀ seq syn fin tsNs data lim,
        c ≠ .accept seq syn fin tsNs data lim) →
      Pass.Trail w w' → Treads h n c w'
  | store {seq : BitVec 32} {syn fin : Bool} {tsNs : ℕ} {data : Bytes} {lim : Limits}
      {w w' : Pass} : h.finConsumed = false →
      Pass.Stores (h.arrive seq syn fin data n).pass n (extendSeq (payloadSeq seq syn) n) tsNs
        (h.arrive seq syn fin data n).data w →
      Pass.Trail w w' → Treads h n (.accept seq syn fin tsNs data lim) w'

theorem Treads.does {h : TcpHalf} {n : ℕ} {c : Call} {w' : Pass} (ht : Treads h n c w') :
    Does h n c w' := by
  cases ht with
  | walk hnoted hmono hem hgaps hquiet htrail => exact .walk hnoted hmono hem hgaps hquiet htrail.path
  | store hopen hstores htrail => exact .store hopen hstores htrail.path

theorem step_treads {h : TcpHalf} {n : ℕ} (hi : h.Idle n) (c : Call) (hc : h.primed c = h) :
    Treads h n c (h.step c) ∧ ∃ n', n ≤ n' ∧ (h.step c).half.Idle n' := by
  cases c with
  | observe seq syn =>
      simp only [primed] at hc
      refine ⟨.walk (w := { half := h }) rfl (fun _ hf ↦ hf) rfl rfl (.inr (by simp)) ?_, n,
        le_rfl, ?_⟩
      · simp only [step, hc]
        exact .refl
      · simpa only [step, hc] using hi
  | accept seq syn fin tsNs data lim =>
      simp only [primed] at hc
      simp only [step, accept, hc, hi.sound.next]
      split_ifs with hfin
      · refine ⟨.walk (w := ⟨h, _⟩) rfl (fun _ hf ↦ hf) rfl rfl (.inl hfin) .refl, n, le_rfl, hi⟩
      · have hfin' : h.finConsumed = false := by simpa using hfin
        have hs := arrive_sound hi.sound hfin' seq syn fin data
        have hopen : (h.arrive seq syn fin data n).pass.half.finConsumed = false := by
          rw [(h.arrive_remarked seq syn fin data n).half]
          exact hfin'
        obtain ⟨⟨w₁, hstores, hpath⟩, hidle⟩ :=
          Arrival.settle_trail (a := h.arrive seq syn fin data n) hs hopen tsNs lim
        exact ⟨.store hfin' hstores hpath, hidle⟩
  | acknowledge ack tsNs gapTimeoutNs =>
      obtain ⟨hpath, hidle⟩ := acknowledge_trail hi ack tsNs gapTimeoutNs
      exact ⟨.walk (by rw [Noted, recordAck_eq]) (fun f ↦ h.recordAck_acked _ _) rfl rfl
        (.inr (by simp)) hpath, hidle⟩
  | rstMatchesNext seq =>
      exact ⟨.walk (w := { half := h }) rfl (fun _ hf ↦ hf) rfl rfl (.inr (by simp)) .refl, n,
        le_rfl, hi⟩
  | finalize tsNs =>
      obtain ⟨hpath, hidle⟩ := finalize_trail hi
      exact ⟨.walk (w := { half := h }) rfl (fun _ hf ↦ hf) rfl rfl (.inr (by simp)) hpath, hidle⟩

theorem step_does {h : TcpHalf} {n : ℕ} (hi : h.Idle n) (c : Call) (hc : h.primed c = h) :
    Does h n c (h.step c) ∧ ∃ n', n ≤ n' ∧ (h.step c).half.Idle n' :=
  (step_treads hi c hc).imp_left Treads.does

/-! ## Runs -/

end TcpHalf

/-- The sequence position at which a call would start a fresh stream. -/
def Call.origin? : Call → Option ℕ
  | .observe seq syn => some (initialSeqEpoch + (payloadSeq seq syn).toNat)
  | .accept seq syn _ _ _ _ => some (initialSeqEpoch + (payloadSeq seq syn).toNat)
  | _ => none

/-- The first `nextAbs` of a run from the default half. -/
def origin? (cs : List Call) : Option ℕ := cs.findSome? Call.origin?

namespace TcpHalf

/-- A call that finds the half untouched and does not initialize it. -/
theorem step_default {c : Call} (hc : c.origin? = none) : ({} : TcpHalf).step c = { half := {} } := by
  cases c with
  | observe seq syn => simp [Call.origin?] at hc
  | accept seq syn fin tsNs data lim => simp [Call.origin?] at hc
  | acknowledge ack tsNs gapTimeoutNs => rfl
  | rstMatchesNext seq => rfl
  | finalize tsNs => rfl

theorem primed_idle_of_default {c : Call} {o : ℕ} (hc : c.origin? = some o) :
    (({} : TcpHalf).primed c).Idle o := by
  cases c with
  | observe seq syn =>
      cases hc
      exact observe_fresh seq syn
  | accept seq syn fin tsNs data lim =>
      cases hc
      exact observe_fresh seq syn
  | acknowledge ack tsNs gapTimeoutNs => cases hc
  | rstMatchesNext seq => cases hc
  | finalize tsNs => cases hc

theorem primed_primed (h : TcpHalf) (c : Call) : (h.primed c).primed c = h.primed c := by
  cases c <;> simp [primed, observe_observe]

theorem Idle.primed {h : TcpHalf} {n : ℕ} (hi : h.Idle n) (c : Call) :
    (h.primed c).Idle n ∧ Noted h (h.primed c) := by
  cases c with
  | observe seq syn => exact ⟨hi.observe seq syn, observe_noted hi.sound.next seq syn⟩
  | accept seq syn fin tsNs data lim =>
      exact ⟨hi.observe seq syn, observe_noted hi.sound.next seq syn⟩
  | acknowledge ack tsNs gapTimeoutNs => exact ⟨hi, rfl⟩
  | rstMatchesNext seq => exact ⟨hi, rfl⟩
  | finalize tsNs => exact ⟨hi, rfl⟩

/-- The step lemma: what a call does, and that it leaves the half idle. -/
theorem Idle.step {h : TcpHalf} {n : ℕ} (hi : h.Idle n) (c : Call) :
    Does (h.primed c) n c (h.step c) ∧ ∃ n', n ≤ n' ∧ (h.step c).half.Idle n' := by
  rw [← step_primed]
  exact step_does (hi.primed c).1 c (primed_primed h c)

theorem Idle.after {h : TcpHalf} {n : ℕ} (hi : h.Idle n) (cs : List Call) :
    ∃ n', n ≤ n' ∧ (h.after cs).Idle n' := by
  induction cs generalizing h n with
  | nil => exact ⟨n, le_rfl, hi⟩
  | cons c cs ih =>
      obtain ⟨-, m, hnm, hm⟩ := hi.step c
      obtain ⟨n', hmn', hn'⟩ := ih hm
      exact ⟨n', hnm.trans hmn', hn'⟩

end TcpHalf

end Bazalt.Flow
