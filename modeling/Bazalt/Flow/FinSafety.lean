import Bazalt.Flow.FirstSeen

/-!
# Tentative FIN safety

A FIN position is validated by an acknowledgement past it, or by a FIN segment that
started at or before the next expected byte.  A half is closed at, and payload is
thrown away from, validated positions only, unless a tentative FIN is announced in the
middle of buffered payload or a replayed payload is carried over one.
-/

namespace Bazalt.Flow

open Lib OrdMap

namespace TcpHalf

/-- Some buffered segment reaches over `f`. -/
def Covers (h : TcpHalf) (f : ℕ) : Prop := Covered BufferedSegment.data h.outOfOrder f

/-- The FIN marker is at a validated position, or tentative with nothing emitted or
buffered over it; a closed half was closed at a validated position. -/
structure Guarded (V : ℕ → Prop) (h : TcpHalf) (n : ℕ) : Prop where
  acked : ∀ f, h.acked f = true → V f
  pending : h.finConsumed = false → ∀ f, h.pendingFin = some f →
    V f ∨ h.pendingFinRequiresAck = true ∧ n ≤ f ∧ ¬ h.Covers f
  closed : h.finConsumed = true → ∃ f, h.pendingFin = some f ∧ V f

theorem Guarded.mono {V V' : ℕ → Prop} {h : TcpHalf} {n : ℕ} (hg : h.Guarded V n)
    (hV : ∀ f, V f → V' f) : h.Guarded V' n := by
  refine ⟨fun f hf ↦ hV f (hg.acked f hf), fun hopen f hf ↦ ?_, fun hclosed ↦ ?_⟩
  · exact (hg.pending hopen f hf).imp_left (hV f)
  · obtain ⟨f, hf, hVf⟩ := hg.closed hclosed
    exact ⟨f, hf, hV f hVf⟩

theorem Guarded.of_open {V : ℕ → Prop} {h : TcpHalf} {n : ℕ} (hopen : h.finConsumed = false)
    (hacked : ∀ f, h.acked f = true → V f)
    (hpending : ∀ f, h.pendingFin = some f →
      V f ∨ h.pendingFinRequiresAck = true ∧ n ≤ f ∧ ¬ h.Covers f) : h.Guarded V n :=
  ⟨hacked, fun _ ↦ hpending, fun hclosed ↦ by simp [hopen] at hclosed⟩

end TcpHalf

namespace Pass

theorem Micro.guarded {V : ℕ → Prop} {w w' : Pass} (hs : Micro w w') {n n' : ℕ}
    (hw : w.half.Sound n) (hw' : w'.half.Sound n') (hg : w.half.Guarded V n) :
    w'.half.Guarded V n' := by
  cases hs with
  | @chunk m segment hfin hnext hfirst =>
      obtain rfl := hw.next_unique hnext
      have hmem := mem_of_first? hfirst
      have hn' : n' = n + segment.data.length := hw'.next_unique (hw.chunk_next hfirst)
      refine ⟨hg.acked, fun hopen f hf ↦ ?_, hg.closed⟩
      refine (hg.pending hfin f hf).imp_right ?_
      rintro ⟨hreq, hle, hcover⟩
      refine ⟨hreq, ?_, ?_⟩
      · by_contra hlt
        exact hcover ⟨(n, segment), hmem, hle, by simp only; omega⟩
      · rintro ⟨e, he, hef⟩
        exact hcover ⟨e, List.mem_of_mem_tail he, hef⟩
  | @drop m k segment hfin hnext hfirst hle =>
      obtain rfl : n = n' := hw.next_unique hw'.next
      refine ⟨hg.acked, fun hopen f hf ↦ ?_, hg.closed⟩
      refine (hg.pending hfin f hf).imp_right ?_
      rintro ⟨hreq, hle, hcover⟩
      refine ⟨hreq, hle, ?_⟩
      rintro ⟨e, he, hef⟩
      exact hcover ⟨e, List.mem_of_mem_tail he, hef⟩
  | @gap m target hfin hnext hlt hclip hahead hland =>
      obtain rfl : n' = target := hw'.next_unique rfl
      refine ⟨hg.acked, fun hopen f hf ↦ ?_, hg.closed⟩
      refine (hg.pending hfin f hf).imp_right ?_
      rintro ⟨hreq, -, hcover⟩
      exact ⟨hreq, hclip f hf, hcover⟩
  | @close fin m hfin hpend hnext hle hack =>
      obtain rfl := hw.next_unique hnext
      refine ⟨hg.acked, fun hopen ↦ absurd hopen (by simp [closeAt]), fun _ ↦ ⟨fin, hpend, ?_⟩⟩
      rcases hg.pending hfin fin hpend with hV | ⟨hreq, hge, -⟩
      · exact hV
      · exact hg.acked fin (hack (by omega) hreq)
  | stamp ts =>
      obtain rfl : n = n' := hw.next_unique hw'.next
      exact ⟨hg.acked, hg.pending, hg.closed⟩

theorem Path.guarded {V : ℕ → Prop} {w w' : Pass} (hp : Path w w') {n : ℕ}
    (hw : w.half.Sound n) (hg : w.half.Guarded V n) :
    ∀ {n'}, w'.half.Sound n' → w'.half.Guarded V n' := by
  induction hp with
  | refl =>
      intro n' hw'
      exact hw.next_unique hw'.next ▸ hg
  | tail hp hs ih =>
      intro n' hw'
      obtain ⟨m, -, hm⟩ := Path.sound hp hw
      exact hs.guarded hm hw' (ih hm)

/-- Payload pushed out of an empty buffer does not reach over an unvalidated FIN. -/
theorem push_guarded {V : ℕ → Prop} {w w₀ : Pass} {n n₁ : ℕ} {data : Bytes} {tsNs : ℕ}
    (hw₀ : w₀.half = w.half) (hw : w.half.Sound n) (hopen : w.half.finConsumed = false)
    (hg : w.half.Guarded V n) (hempty : w.half.outOfOrder.entries = [])
    (hend : ∀ f, w.half.pendingFin = some f → V f ∨ satAdd n data.length ≤ f)
    (hw₁ : (w₀.push data tsNs).half.Sound n₁) : (w₀.push data tsNs).half.Guarded V n₁ := by
  have hn : n₁ = satAdd n data.length := by
    refine hw₁.next_unique ?_
    change w₀.half.nextAbs.map _ = _
    rw [hw₀, hw.next, Option.map_some]
  refine ⟨?_, fun _ f hf ↦ ?_, ?_⟩
  · intro f hf
    exact hg.acked f (by simpa [push, TcpHalf.acked, hw₀] using hf)
  · replace hf : w.half.pendingFin = some f := hw₀ ▸ hf
    rcases hg.pending hopen f hf with hV | ⟨hreq, -, -⟩
    · exact .inl hV
    · refine (hend f hf).imp_right fun hle ↦ ⟨?_, hn ▸ hle, ?_⟩
      · simpa [push, hw₀] using hreq
      · rintro ⟨e, he, -⟩
        change e ∈ w₀.half.outOfOrder.entries at he
        simp [hw₀, hempty] at he
  · intro hclosed
    simp [push, hw₀, hopen] at hclosed

/-- A stored payload that ends at or before an unvalidated FIN, also when it is
replayed at `n`, does not reach over it. -/
theorem Stores.guarded {V : ℕ → Prop} {w w₁ : Pass} {n n₁ start tsNs : ℕ} {data : Bytes}
    (hs : Stores w n start tsNs data w₁) (hw : w.half.Sound n) (hw₁ : w₁.half.Sound n₁)
    (hopen : w.half.finConsumed = false) (hg : w.half.Guarded V n)
    (hend : ∀ f, w.half.pendingFin = some f → V f ∨ satAdd start data.length ≤ f)
    (hreplay : ∀ f, w.half.pendingFin = some f → data ≠ [] → start + data.length ≤ n →
      w.half.outOfOrder.entries = [] → V f ∨ n + data.length ≤ f) :
    w₁.half.Guarded V n₁ := by
  cases hs with
  | nothing => exact hw.next_unique hw₁.next ▸ hg
  | @buffer _ lo hne hcase hlo hins =>
      have hn : n₁ = n := by
        refine hw₁.next_unique ?_
        rw [hins.half]
        exact hw.next
      subst hn
      have hpend : w₁.half.pendingFin = w.half.pendingFin := by rw [hins.half]
      refine ⟨?_, fun _ f hf ↦ ?_, ?_⟩
      · rw [hins.half]
        exact hg.acked
      · rw [hpend] at hf
        rcases hg.pending hopen f hf with hV | ⟨hreq, hle, hcover⟩
        · exact .inl hV
        · refine (hend f hf).imp_right fun hef ↦ ⟨?_, hle, ?_⟩
          · rw [hins.half]
            exact hreq
          · rintro ⟨e, he, h₁, h₂⟩
            rcases hins.adds e he with he | ⟨-, hhi⟩
            · exact hcover ⟨e, he, h₁, h₂⟩
            · omega
      · rw [hins.half]
        exact hg.closed
  | direct hle hlt hempty hw₀ =>
      have hsum : satAdd n (data.drop (n - start)).length = satAdd start data.length := by
        rw [List.length_drop]
        unfold satAdd
        omega
      have hfin := fun f hf ↦ hsum ▸ hend f hf
      rcases hw₀ with rfl | rfl
      · exact push_guarded rfl hw hopen hg hempty hfin hw₁
      · exact push_guarded rfl hw hopen hg hempty hfin hw₁
  | replay hne hle hempty =>
      refine push_guarded rfl hw hopen hg hempty (fun f hf ↦ ?_) hw₁
      exact (hreplay f hf hne hle hempty).imp_right (satAdd_le_add _ _).trans

end Pass

namespace TcpHalf

/-! ## FIN marking and truncation -/

/-- A FIN ahead of the next expected byte `n` would mark a position inside a buffered
segment, not acknowledged so far. -/
def FinInsideBuffer (h : TcpHalf) (n start finish : ℕ) : Prop :=
  n < start ∧ h.pendingFin = none ∧ h.acked finish = false ∧
    ∃ e ∈ h.outOfOrder.entries, e.1 ≤ finish ∧ finish < e.1 + e.2.data.length

/-- A payload wholly behind `n` would be emitted again over a tentative FIN, not
acknowledged so far. -/
def ReplayOverFin (h : TcpHalf) (n start : ℕ) (data : Bytes) : Prop :=
  data ≠ [] ∧ start + data.length ≤ n ∧ h.outOfOrder.isEmpty ∧
    ∃ f ∈ h.pendingFin, h.pendingFinRequiresAck ∧ h.acked f = false ∧ f < n + data.length

/-- A call takes neither slip.  The second is harmless when the same segment carries a FIN
at `n`, since that one takes the place of the tentative FIN. -/
def FinClear (h : TcpHalf) : Call → Prop
  | .accept seq syn fin _ data _ =>
      let h := h.observe seq syn
      ∀ n ∈ h.nextAbs, h.finConsumed = false →
        let start := extendSeq (payloadSeq seq syn) n
        (fin → ¬ h.FinInsideBuffer n start (satAdd start data.length)) ∧
          (h.ReplayOverFin n start data → fin ∧ start + data.length = n)
  | _ => True

/-- A call that announces a FIN at `f` from at or before the next expected byte. -/
def Announces (h : TcpHalf) : Call → ℕ → Prop
  | .accept seq syn fin _ data _, f =>
      fin = true ∧ ∃ n ∈ (h.observe seq syn).nextAbs,
        extendSeq (payloadSeq seq syn) n ≤ n ∧
          satAdd (extendSeq (payloadSeq seq syn) n) data.length = f
  | _, _ => False

instance (h : TcpHalf) (n start finish : ℕ) : Decidable (h.FinInsideBuffer n start finish) :=
  inferInstanceAs (Decidable (_ ∧ _ ∧ _ ∧ ∃ e ∈ h.outOfOrder.entries, _))

instance (h : TcpHalf) (n start : ℕ) (data : Bytes) : Decidable (h.ReplayOverFin n start data) :=
  inferInstanceAs (Decidable (_ ∧ _ ∧ _ ∧ ∃ f ∈ h.pendingFin, _))

instance decidableFinClear (h : TcpHalf) : (c : Call) → Decidable (h.FinClear c)
  | .accept seq syn fin _ _ _ =>
      inferInstanceAs (Decidable (∀ n ∈ (h.observe seq syn).nextAbs,
        (h.observe seq syn).finConsumed = false → (fin → ¬ _) ∧ (_ → _ ∧ _)))
  | .observe _ _ => isTrue trivial
  | .acknowledge _ _ _ => isTrue trivial
  | .rstMatchesNext _ => isTrue trivial
  | .finalize _ => isTrue trivial

instance decidableAnnounces (h : TcpHalf) : (c : Call) → (f : ℕ) → Decidable (h.Announces c f)
  | .accept seq syn fin _ data _, f =>
      inferInstanceAs (Decidable (fin = true ∧ ∃ n ∈ (h.observe seq syn).nextAbs,
        extendSeq (payloadSeq seq syn) n ≤ n ∧
          satAdd (extendSeq (payloadSeq seq syn) n) data.length = f))
  | .observe _ _, _ => isFalse id
  | .acknowledge _ _ _, _ => isFalse id
  | .rstMatchesNext _, _ => isFalse id
  | .finalize _, _ => isFalse id

/-- FIN marking keeps the guard.  A marker that is not validated is either announced
ahead by this segment, or was there before. -/
theorem markFin_guarded {V : ℕ → Prop} {h : TcpHalf} {n start finish : ℕ}
    (hg : h.Guarded V n) (hopen : h.finConsumed = false) (hsf : start ≤ finish)
    (hV : start ≤ n → V finish)
    (hclear : n < start → h.pendingFin = none → V finish ∨ ¬ h.Covers finish) :
    (h.markFin start finish n).Guarded V n ∧
      ∀ f, (h.markFin start finish n).pendingFin = some f →
        V f ∨ n < start ∧ f = finish ∨ n < start ∧ h.markFin start finish n = h := by
  unfold markFin
  split
  · rename_i hnone
    by_cases hahead : n < start
    · refine ⟨.of_open hopen hg.acked fun f hf ↦ ?_, fun f hf ↦ ?_⟩
      · obtain rfl := Option.some.inj hf
        refine (hclear hahead hnone).imp_right fun hcover ↦ ⟨?_, by omega, hcover⟩
        simpa using hahead
      · obtain rfl := Option.some.inj hf
        exact .inr (.inl ⟨hahead, rfl⟩)
    · have hVf := hV (not_lt.mp hahead)
      refine ⟨.of_open hopen hg.acked fun f hf ↦ ?_, fun f hf ↦ ?_⟩
      · obtain rfl := Option.some.inj hf
        exact .inl hVf
      · obtain rfl := Option.some.inj hf
        exact .inl hVf
  · rename_i existing hpend
    split_ifs with h₁ h₂
    · have hVf := hV h₁.2
      rw [← h₁.1] at hVf
      refine ⟨.of_open hopen hg.acked fun f hf ↦ ?_, fun f hf ↦ ?_⟩
      · obtain rfl := Option.some.inj (hpend.symm.trans hf)
        exact .inl hVf
      · obtain rfl := Option.some.inj (hpend.symm.trans hf)
        exact .inl hVf
    · have hVf := hV h₂.2
      refine ⟨.of_open hopen hg.acked fun f hf ↦ ?_, fun f hf ↦ ?_⟩
      · obtain rfl := Option.some.inj hf
        exact .inl hVf
      · obtain rfl := Option.some.inj hf
        exact .inl hVf
    · refine ⟨hg, fun f hf ↦ ?_⟩
      rcases hg.pending hopen f hf with hVf | ⟨hreq, -, -⟩
      · exact .inl hVf
      · refine .inr (.inr ⟨?_, rfl⟩)
        by_contra hle
        exact h₂ ⟨hreq, not_lt.mp hle⟩

/-- FIN truncation keeps the guard, and cuts payload only from a validated position on.
A marker that is not validated lies at or after the end of the payload. -/
theorem truncateAtFin_guarded {V : ℕ → Prop} {w : Pass} {n : ℕ} (hg : w.half.Guarded V n)
    (hopen : w.half.finConsumed = false) (start finish : ℕ) (data : Bytes) :
    (w.truncateAtFin start finish data).1.half.Guarded V n ∧
      (∀ f, (w.truncateAtFin start finish data).1.half.pendingFin = some f →
        V f ∨ finish ≤ f ∧ (w.truncateAtFin start finish data).2 = data ∧
          (w.truncateAtFin start finish data).1 = w) ∧
      ∀ i, i < data.length → i < (w.truncateAtFin start finish data).2.length ∨
        ∃ f, V f ∧ f ≤ start + i := by
  unfold Pass.truncateAtFin
  split
  · rename_i hnone
    exact ⟨hg, by simp [hnone], fun i hi ↦ .inl hi⟩
  · rename_i fin hpend
    have hvalid : ¬ (w.half.pendingFinRequiresAck ∧ ¬ w.half.acked fin) → V fin := by
      intro hno
      rcases hg.pending hopen fin hpend with hV | ⟨hreq, -, -⟩
      · exact hV
      · by_contra hV
        exact hno ⟨hreq, fun hack ↦ hV (hg.acked fin hack)⟩
    have hmark : ∀ f, w.half.pendingFin = some f → V fin → V f := by
      intro f hf hV
      obtain rfl := Option.some.inj (hpend.symm.trans hf)
      exact hV
    split_ifs with h₁ h₂ h₃ h₄
    · exact ⟨.of_open hopen hg.acked (by simp), by simp, fun i hi ↦ .inl hi⟩
    · exact ⟨hg, fun f hf ↦ .inl (hmark f hf (hvalid h₂)),
        fun i hi ↦ .inr ⟨fin, hvalid h₂, by omega⟩⟩
    · exact ⟨⟨hg.acked, hg.pending, hg.closed⟩, fun f hf ↦ .inl (hmark f hf (hvalid h₂)),
        fun i hi ↦ .inr ⟨fin, hvalid h₂, by omega⟩⟩
    · refine ⟨⟨hg.acked, hg.pending, hg.closed⟩, fun f hf ↦ .inl (hmark f hf (hvalid h₂)),
        fun i hi ↦ ?_⟩
      by_cases hcut : i < fin - start
      · refine .inl ?_
        rw [List.length_take]
        omega
      · exact .inr ⟨fin, hvalid h₂, by omega⟩
    · refine ⟨hg, fun f hf ↦ ?_, fun i hi ↦ .inl hi⟩
      obtain rfl := Option.some.inj (hpend.symm.trans hf)
      exact .inr ⟨not_lt.mp h₁, rfl, rfl⟩

/-- What FIN marking and truncation of an accepted segment leave, when the slips are not
taken. -/
theorem arrive_guarded {V : ℕ → Prop} {h : TcpHalf} {n : ℕ} (hi : h.Idle n)
    (hg : h.Guarded V n) (hopen : h.finConsumed = false) {seq : BitVec 32} {syn fin : Bool}
    {tsNs : ℕ} {data : Bytes} {lim : Limits} (hobs : h.observe seq syn = h)
    (hclear : h.FinClear (.accept seq syn fin tsNs data lim))
    (hV : ∀ f, h.Announces (.accept seq syn fin tsNs data lim) f → V f) :
    (h.arrive seq syn fin data n).pass.half.Guarded V n ∧
      (∀ f, (h.arrive seq syn fin data n).pass.half.pendingFin = some f → V f ∨
        satAdd (extendSeq (payloadSeq seq syn) n)
          (h.arrive seq syn fin data n).data.length ≤ f) ∧
      (∀ f, (h.arrive seq syn fin data n).pass.half.pendingFin = some f →
        (h.arrive seq syn fin data n).data ≠ [] →
        extendSeq (payloadSeq seq syn) n + (h.arrive seq syn fin data n).data.length ≤ n →
        (h.arrive seq syn fin data n).pass.half.outOfOrder.entries = [] →
        V f ∨ n + (h.arrive seq syn fin data n).data.length ≤ f) ∧
      ∀ i, i < data.length → i < (h.arrive seq syn fin data n).data.length ∨
        ∃ f, V f ∧ f ≤ extendSeq (payloadSeq seq syn) n + i := by
  simp only [FinClear, hobs] at hclear
  obtain ⟨hinside, hover⟩ := hclear n hi.sound.next hopen
  have hann : fin = true → extendSeq (payloadSeq seq syn) n ≤ n →
      V (satAdd (extendSeq (payloadSeq seq syn) n) data.length) := by
    intro hfin hle
    exact hV _ ⟨hfin, n, by rw [hobs]; exact hi.sound.next, hle, rfl⟩
  unfold arrive
  simp only
  have hstart : extendSeq (payloadSeq seq syn) n ≤ u64Max := by
    have hmax := hi.sound.le
    unfold extendSeq
    simp only
    split_ifs
    · exact satAdd_le _ _
    · omega
  generalize extendSeq (payloadSeq seq syn) n = start at *
  have hsf : start ≤ satAdd start data.length := le_satAdd hstart
  have hmarked : ∃ h₁, (if fin ∧ n ≤ satAdd start data.length then
      h.markFin start (satAdd start data.length) n else h) = h₁ ∧
      h₁.Guarded V n ∧ h₁.finConsumed = false ∧ h₁.outOfOrder = h.outOfOrder ∧
      ∀ f, h₁.pendingFin = some f → V f ∨ n < start ∨
        h₁ = h ∧ (fin → ¬ n ≤ satAdd start data.length) := by
    refine ⟨_, rfl, ?_⟩
    split_ifs with hmark
    · obtain ⟨hg₁, hpend⟩ := markFin_guarded hg hopen hsf (hann hmark.1) (fun hahead hnone ↦ by
        by_cases hack : h.acked (satAdd start data.length) = true
        · exact .inl (hg.acked _ hack)
        · refine .inr ?_
          rintro ⟨e, he, hcover⟩
          exact hinside hmark.1 ⟨hahead, hnone, by simpa using hack, e, he, hcover⟩)
      have hrem := h.markFin_remarked start (satAdd start data.length) n
      refine ⟨hg₁, ?_, ?_, fun f hf ↦ ?_⟩
      · rw [hrem.half]
        exact hopen
      · rw [hrem.half]
      · rcases hpend f hf with hVf | ⟨hahead, -⟩ | ⟨hahead, -⟩
        · exact .inl hVf
        · exact .inr (.inl hahead)
        · exact .inr (.inl hahead)
    · refine ⟨hg, hopen, rfl, fun f hf ↦ .inr (.inr ⟨rfl, fun hfin hle ↦ hmark ⟨hfin, hle⟩⟩)⟩
  obtain ⟨h₁, heq, hg₁, hopen₁, hbuf, hpend⟩ := hmarked
  rw [heq]
  obtain ⟨hg₂, hpend₂, hcut⟩ :=
    truncateAtFin_guarded (w := { half := h₁ }) hg₁ hopen₁ start (satAdd start data.length) data
  refine ⟨hg₂, fun f hf ↦ ?_, fun f hf hne hle hempty ↦ ?_, hcut⟩
  · rcases hpend₂ f hf with hVf | ⟨hfin, hdata, -⟩
    · exact .inl hVf
    · exact .inr (by rwa [hdata])
  · rcases hpend₂ f hf with hVf | ⟨hfin, hdata, hsame⟩
    · exact .inl hVf
    · rw [hdata] at hne hle ⊢
      rw [hsame] at hf hempty
      rcases hpend f hf with hVf | hahead | ⟨rfl, hfin⟩
      · exact .inl hVf
      · omega
      · rcases hg.pending hopen f hf with hVf | ⟨hreq, -, -⟩
        · exact .inl hVf
        · by_cases hack : h₁.acked f = true
          · exact .inl (hg.acked f hack)
          · refine .inr ?_
            by_contra hlt
            obtain ⟨hfin', hend⟩ := hover ⟨hne, hle, isEmpty_iff.mpr hempty, f, hf, hreq,
              by simpa using hack, not_le.mp hlt⟩
            have hmax := hi.sound.le
            exact hfin hfin' (le_min (by omega) hmax)

/-! ## Payload that is kept -/

/-- Byte `b` of position `p` is buffered after a call, or was emitted by it at the offset
that belongs to `p` when the call found the half expecting `n`. -/
def Kept (h : TcpHalf) (n : ℕ) (w' : Pass) (p : ℕ) (b : UInt8) : Prop :=
  w'.half.Held p b ∨ ∃ chunk ∈ w'.out.emitted, ∃ i, chunk.data[i]? = some b ∧
    n + chunk.offset + i = p + h.streamOffset

/-- The payload of a call carries the position `p`, not behind `n`. -/
def Carries (n : ℕ) : Call → ℕ → Prop
  | .accept seq syn _ _ data _, p =>
      n ≤ p ∧ ∃ i, i < data.length ∧ p = extendSeq (payloadSeq seq syn) n + i
  | _, _ => False

end TcpHalf

theorem Pass.Emits.mem_emitted {w w' : Pass} {es : List (Span UInt8)} (h : Emits w w' es)
    {q : ℕ} {data : Bytes} (hmem : (q, data) ∈ Span.chunksAt w.half.streamOffset es) :
    ∃ chunk ∈ w'.out.emitted, chunk.offset = q ∧ chunk.data = data := by
  have : (q, data) ∈ w'.out.emitted.map (·.placed) := by
    rw [h.chunks]
    exact List.mem_append_right _ hmem
  obtain ⟨chunk, hchunk, heq⟩ := List.mem_map.mp this
  exact ⟨chunk, hchunk, congrArg Prod.fst heq, congrArg Prod.snd heq⟩

theorem Pass.Emits.mem_of_mem {w w' : Pass} {es : List (Span UInt8)} (h : Emits w w' es)
    {chunk : ReassembledChunk} (hmem : chunk ∈ w.out.emitted) :
    ∃ chunk' ∈ w'.out.emitted, chunk'.offset = chunk.offset ∧ chunk'.data = chunk.data := by
  have : chunk.placed ∈ w'.out.emitted.map (·.placed) := by
    rw [h.chunks]
    exact List.mem_append_left _ (List.mem_map_of_mem (f := fun c ↦ c.placed) hmem)
  obtain ⟨chunk', hchunk, heq⟩ := List.mem_map.mp this
  exact ⟨chunk', hchunk, congrArg Prod.fst heq, congrArg Prod.snd heq⟩

/-- Storing keeps what was buffered, and puts the payload from `n` on into the buffer or
into the output. -/
theorem Pass.Stores.retains {w w₁ : Pass} {n start tsNs : ℕ} {data : Bytes}
    (hs : Stores w n start tsNs data w₁) :
    (∀ p b, w.half.Held p b → w₁.half.nextAbs = w.half.nextAbs ∧
      w₁.half.streamOffset = w.half.streamOffset ∧ w₁.half.Held p b) ∧
    ∀ i, i < data.length → n ≤ start + i → start + i < u64Max →
      w₁.half.nextAbs = w.half.nextAbs ∧ w₁.half.streamOffset = w.half.streamOffset ∧
        (∃ b, w₁.half.Held (start + i) b) ∨
      ∃ chunk ∈ w₁.out.emitted, ∃ j b, chunk.data[j]? = some b ∧
        n + chunk.offset + j = start + i + w.half.streamOffset := by
  have hnone : w.half.outOfOrder.entries = [] → ∀ p b, ¬ w.half.Held p b := by
    rintro hempty p b ⟨e, he, -⟩
    simp [hempty] at he
  cases hs with
  | nothing hnil => exact ⟨fun p b hb ↦ ⟨rfl, rfl, hb⟩, fun i hi ↦ by simp [hnil] at hi⟩
  | @buffer _ lo hne hcase hlo hins =>
      refine ⟨fun p b hb ↦ ⟨?_, ?_, (hins.held p b).mpr (.inl hb)⟩, fun i hi hle hmax ↦ .inl ?_⟩
      · rw [hins.half]
      · rw [hins.half]
      · refine ⟨by rw [hins.half], by rw [hins.half], ?_⟩
        by_cases hfree : ∀ c, ¬ w.half.Held (start + i) c
        · refine ⟨data[i], (hins.held _ _).mpr (.inr ⟨hfree, ?_, ?_, ?_⟩)⟩
          · omega
          · exact lt_min (by omega) hmax
          · simp
        · push Not at hfree
          obtain ⟨c, hc⟩ := hfree
          exact ⟨c, (hins.held _ _).mpr (.inl hc)⟩
  | @direct w₀ hle hlt hempty hw₀ =>
      refine ⟨fun p b hb ↦ absurd hb (hnone hempty p b), fun i hi hni _ ↦ .inr ?_⟩
      have hoff : w₀.half.streamOffset = w.half.streamOffset := by
        rcases hw₀ with rfl | rfl
        · rfl
        · rfl
      refine ⟨⟨w₀.half.streamOffset, tsNs, data.drop (n - start)⟩, by simp [push],
        start + i - n, data[i], ?_, by simp only; omega⟩
      rw [List.getElem?_drop, show n - start + (start + i - n) = i by omega]
      exact List.getElem?_eq_getElem hi
  | replay hne hle hempty =>
      exact ⟨fun p b hb ↦ absurd hb (hnone hempty p b), fun i hi hni _ ↦ by omega⟩

namespace TcpHalf

/-- What is buffered ahead when a path starts is kept, up to a validated FIN. -/
theorem path_kept {V : ℕ → Prop} {h : TcpHalf} {w w' : Pass} (hp : Pass.Path w w')
    {n n' : ℕ} (hw : w.half.Sound n) (hw' : w'.half.Sound n') (hg' : w'.half.Guarded V n')
    (hoff : w.half.streamOffset = h.streamOffset) {p : ℕ} {b : UInt8} (hle : n ≤ p)
    (hheld : w.half.Held p b) : h.Kept n w' p b ∨ ∃ f, V f ∧ f ≤ p := by
  obtain ⟨es, hes⟩ := hp.reads hw hw'
  by_cases hlt : p < n + Span.width es
  · obtain ⟨q, data, i, c, hmem, hc, hkn, heq⟩ :=
      hes.delivers.chunk_of_known hheld hle hlt w.half.streamOffset
    obtain rfl := hw.buffered.tidy.holds_unique hheld hkn
    obtain ⟨chunk, hchunk, rfl, rfl⟩ := hes.emits.mem_emitted hmem
    exact .inl (.inr ⟨chunk, hchunk, i, hc, by omega⟩)
  · rcases hes.lands with ⟨-, -, hrest⟩ | ⟨-, hclosed, fin, hpend, hfin, -⟩
    · exact .inl (.inl ((hrest p b (by omega)).mpr hheld))
    · obtain ⟨f, hf, hV⟩ := hg'.closed hclosed
      rw [(Pass.Path.frame hp).1, hpend] at hf
      obtain rfl := Option.some.inj hf
      exact .inr ⟨fin, hV, by omega⟩

theorem Does.guarded {V : ℕ → Prop} {h : TcpHalf} {n n' : ℕ} {c : Call} {w' : Pass}
    (hi : h.Idle n) (hc : h.primed c = h) (hd : Does h n c w') (hi' : w'.half.Idle n')
    (hg : h.Guarded V n) (hclear : h.FinClear c) (hVack : ∀ f, w'.half.acked f = true → V f)
    (hVann : ∀ f, h.Announces c f → V f) :
    w'.half.Guarded V n' ∧
      (∀ p b, h.Held p b → h.Kept n w' p b ∨ ∃ f, V f ∧ f ≤ p) ∧
      ∀ p, Carries n c p → p < u64Max → (∃ b, h.Kept n w' p b) ∨ ∃ f, V f ∧ f ≤ p := by
  have hahead : ∀ p b, h.Held p b → n ≤ p := by
    rintro p b ⟨e, he, hle, -⟩
    exact (hi.ahead e he).le.trans hle
  cases hd with
  | @walk c w w' hnoted hmono hem hgaps hquiet hp =>
      have hw := hnoted.sound hi.sound
      have hgw : w.half.Guarded V n := by
        refine ⟨fun f hf ↦ hVack f ?_, ?_, ?_⟩
        · rw [acked, (Pass.Path.frame hp).2.1]
          exact hf
        · rw [hnoted]
          exact hg.pending
        · rw [hnoted]
          exact hg.closed
      have hg' := Pass.Path.guarded hp hw hgw hi'.sound
      refine ⟨hg', fun p b hheld ↦ ?_, fun p hcarries _ ↦ ?_⟩
      · refine path_kept hp hw hi'.sound hg' ?_ (hahead p b hheld) ?_
        · rw [hnoted]
        · rw [hnoted]
          exact hheld
      · -- only a closed half ignores a payload
        cases c with
        | accept seq syn fin tsNs data lim =>
            have hclosed := hquiet.resolve_right fun hno ↦ hno _ _ _ _ _ _ rfl
            obtain ⟨f, hf, hV⟩ := hg.closed hclosed
            exact .inr ⟨f, hV, (hi.sound.past hclosed f hf).trans hcarries.1⟩
        | observe seq syn => cases hcarries
        | acknowledge ack tsNs gapTimeoutNs => cases hcarries
        | rstMatchesNext seq => cases hcarries
        | finalize tsNs => cases hcarries
  | @store seq syn fin tsNs data lim w w' hopen hstores hp =>
      simp only [primed] at hc
      obtain ⟨hga, hend, hreplay, hcut⟩ := arrive_guarded hi hg hopen hc hclear hVann
      have hmark := h.arrive_remarked seq syn fin data n
      have hs := arrive_sound hi.sound hopen seq syn fin data
      simp only [Carries]
      generalize h.arrive seq syn fin data n = a at *
      generalize extendSeq (payloadSeq seq syn) n = start at *
      have hopen' : a.pass.half.finConsumed = false := by
        rw [hmark.half]
        exact hopen
      obtain ⟨n₁, -, hw⟩ := hstores.sound hs hopen'
      have hg₁ := hstores.guarded hs hw hopen' hga hend hreplay
      have hg' := Pass.Path.guarded hp hw hg₁ hi'.sound
      have hoff : a.pass.half.streamOffset = h.streamOffset := by rw [hmark.half]
      have hheldEq : ∀ p b, h.Held p b → a.pass.half.Held p b := by
        intro p b hb
        rw [hmark.half]
        exact hb
      obtain ⟨hold, hnew⟩ := hstores.retains
      refine ⟨hg', fun p b hheld ↦ ?_, ?_⟩
      · obtain ⟨hnext, hoff', hheld'⟩ := hold p b (hheldEq p b hheld)
        obtain rfl : n₁ = n := hw.next_unique (hnext.trans hs.next)
        exact path_kept hp hw hi'.sound hg' (hoff'.trans hoff) (hahead p b hheld) hheld'
      · rintro p ⟨hnp, i, hi, rfl⟩ hmax
        rcases hcut i hi with hi | hV
        · rcases hnew i hi hnp hmax with ⟨hnext, hoff', b, hb⟩ | ⟨chunk, hchunk, j, b, hj, heq⟩
          · obtain rfl : n₁ = n := hw.next_unique (hnext.trans hs.next)
            exact (path_kept hp hw hi'.sound hg' (hoff'.trans hoff) hnp hb).imp_left fun hk ↦ ⟨b, hk⟩
          · obtain ⟨es, hes⟩ := hp.reads hw hi'.sound
            obtain ⟨chunk', hchunk', ho, hd⟩ := hes.emits.mem_of_mem hchunk
            exact .inl ⟨b, .inr ⟨chunk', hchunk', j, by rw [hd]; exact hj, by omega⟩⟩
        · exact .inr hV

/-! ## Runs -/

theorem Does.acked_mono {h : TcpHalf} {n : ℕ} {c : Call} {w' : Pass} (hd : Does h n c w')
    {f : ℕ} (hf : h.acked f = true) : w'.half.acked f = true := by
  cases hd with
  | @walk c w w' hnoted hmono hem hgaps hquiet hp =>
      rw [acked, (Pass.Path.frame hp).2.1]
      exact hmono f hf
  | @store seq syn fin tsNs data lim w w' hopen hstores hp =>
      rw [acked, (Pass.Path.frame hp).2.1, hstores.half_frame.2.2.2,
        (h.arrive_remarked seq syn fin data n).half]
      exact hf

/-- After the run `cs` the position `f` is acknowledged by the peer, or some accept call
of the run announced a FIN there from at or before the next expected byte. -/
def Validated (cs : List Call) (f : ℕ) : Prop :=
  (({} : TcpHalf).after cs).acked f = true ∨
    ∃ as c bs, cs = as ++ c :: bs ∧ (({} : TcpHalf).after as).Announces c f

end TcpHalf

/-- A run in which FIN is safe: the half is closed at a validated position only, and
buffered or arriving payload is lost only from a validated position on. -/
structure FinSafe (cs : List Call) : Prop where
  closes : ∀ as c bs, cs = as ++ c :: bs → (({} : TcpHalf).after as).finConsumed = false →
    (({} : TcpHalf).after (as ++ [c])).finConsumed = true →
    ∃ f, (({} : TcpHalf).after (as ++ [c])).pendingFin = some f ∧
      TcpHalf.Validated (as ++ [c]) f
  buffered : ∀ as c bs n, cs = as ++ c :: bs → (({} : TcpHalf).after as).nextAbs = some n →
    ∀ p b, (({} : TcpHalf).after as).Held p b →
      (({} : TcpHalf).after as).Kept n ((({} : TcpHalf).after as).step c) p b ∨
        ∃ f, TcpHalf.Validated (as ++ [c]) f ∧ f ≤ p
  arriving : ∀ as c bs n, cs = as ++ c :: bs →
    ((({} : TcpHalf).after as).primed c).nextAbs = some n → ∀ p, TcpHalf.Carries n c p →
      p < u64Max →
      (∃ b, (({} : TcpHalf).after as).Kept n ((({} : TcpHalf).after as).step c) p b) ∨
        ∃ f, TcpHalf.Validated (as ++ [c]) f ∧ f ≤ p

namespace TcpHalf

theorem announces_primed {h : TcpHalf} {c : Call} {f : ℕ} (ha : (h.primed c).Announces c f) :
    h.Announces c f := by
  cases c with
  | accept seq syn fin tsNs data lim =>
      simpa only [primed, Announces, observe_observe] using ha
  | observe seq syn => cases ha
  | acknowledge ack tsNs gapTimeoutNs => cases ha
  | rstMatchesNext seq => cases ha
  | finalize tsNs => cases ha

theorem finClear_primed {h : TcpHalf} {c : Call} (hclear : h.FinClear c) :
    (h.primed c).FinClear c := by
  cases c with
  | accept seq syn fin tsNs data lim =>
      simpa only [primed, FinClear, observe_observe] using hclear
  | observe seq syn => trivial
  | acknowledge ack tsNs gapTimeoutNs => trivial
  | rstMatchesNext seq => trivial
  | finalize tsNs => trivial

/-- The state between two calls of a run whose FIN markers are guarded. -/
def GuardedAt (cs : List Call) : Prop :=
  ({} : TcpHalf).after cs = {} ∨
    ∃ n, (({} : TcpHalf).after cs).Idle n ∧ (({} : TcpHalf).after cs).Guarded (Validated cs) n

theorem GuardedAt.primed {as : List Call} (hg : GuardedAt as) (c : Call) :
    (({} : TcpHalf).after as = {} ∧ c.origin? = none) ∨
      ∃ n, ((({} : TcpHalf).after as).primed c).Idle n ∧
        ((({} : TcpHalf).after as).primed c).Guarded (Validated as) n := by
  rcases hg with hfresh | ⟨n, hi, hg⟩
  · cases hc : c.origin? with
    | none => exact .inl ⟨hfresh, rfl⟩
    | some o =>
        rw [hfresh]
        refine .inr ⟨o, primed_idle_of_default hc, .of_open ?_ (fun f hf ↦ ?_) (fun f hf ↦ ?_)⟩
        · rw [primed_eq]
        · rw [acked_primed] at hf
          simp [acked] at hf
        · rw [primed_eq] at hf
          simp at hf
  · obtain ⟨hi₀, hnoted⟩ := hi.primed c
    refine .inr ⟨n, hi₀, ⟨?_, ?_, ?_⟩⟩
    · intro f hf
      rw [acked_primed] at hf
      exact hg.acked f hf
    · rw [hnoted]
      exact hg.pending
    · rw [hnoted]
      exact hg.closed

theorem Validated.snoc {as : List Call} {c : Call} {f : ℕ}
    (hack : (({} : TcpHalf).after as).acked f = true →
      (({} : TcpHalf).after (as ++ [c])).acked f = true)
    (hv : Validated as f) : Validated (as ++ [c]) f := by
  rcases hv with hv | ⟨bs, d, ds, rfl, hann⟩
  · exact .inl (hack hv)
  · exact .inr ⟨bs, d, ds ++ [c], by simp, hann⟩

/-- The step lemma: the call after a guarded run leaves the markers guarded and keeps
payload up to a validated position. -/
theorem GuardedAt.step {as : List Call} (hg : GuardedAt as) {c : Call}
    (hclear : (({} : TcpHalf).after as).FinClear c) :
    (({} : TcpHalf).after as = {} ∧ c.origin? = none) ∨
      ∃ n n', ((({} : TcpHalf).after as).primed c).Idle n ∧
        (({} : TcpHalf).after (as ++ [c])).Idle n' ∧
        (({} : TcpHalf).after (as ++ [c])).Guarded (Validated (as ++ [c])) n' ∧
        (∀ p b, ((({} : TcpHalf).after as).primed c).Held p b →
          ((({} : TcpHalf).after as).primed c).Kept n ((({} : TcpHalf).after as).step c) p b ∨
            ∃ f, Validated (as ++ [c]) f ∧ f ≤ p) ∧
        ∀ p, Carries n c p → p < u64Max →
          (∃ b, ((({} : TcpHalf).after as).primed c).Kept n
            ((({} : TcpHalf).after as).step c) p b) ∨
            ∃ f, Validated (as ++ [c]) f ∧ f ≤ p := by
  rcases hg.primed c with hfresh | ⟨n, hi, hg⟩
  · exact .inl hfresh
  · obtain ⟨hdoes, n', -, hi'⟩ := step_does hi c (primed_primed _ c)
    rw [step_primed] at hdoes hi'
    have hafter : ({} : TcpHalf).after (as ++ [c]) = ((({} : TcpHalf).after as).step c).half :=
      after_snoc as c
    have hmono : ∀ f, Validated as f → Validated (as ++ [c]) f := by
      intro f hv
      refine hv.snoc fun hf ↦ ?_
      rw [hafter]
      refine hdoes.acked_mono ?_
      rw [acked_primed]
      exact hf
    obtain ⟨hg', hold, hnew⟩ := hdoes.guarded hi (primed_primed _ c) hi' (hg.mono hmono)
      (finClear_primed hclear) (fun f hf ↦ .inl (hafter ▸ hf))
      (fun f hf ↦ .inr ⟨as, c, [], rfl, announces_primed hf⟩)
    refine .inr ⟨n, n', hi, ?_, ?_, hold, hnew⟩
    · rw [hafter]
      exact hi'
    · rw [hafter]
      exact hg'

theorem guardedAt_of_finClear {cs : List Call} (hclear : ({} : TcpHalf).Along FinClear cs) :
    GuardedAt cs := by
  induction cs using List.reverseRecOn with
  | nil => exact .inl rfl
  | append_singleton as c ih =>
      obtain ⟨has, hc⟩ := along_append.mp hclear
      rcases (ih has).step hc.1 with ⟨hfresh, hnone⟩ | ⟨n, n', -, hi', hg', -⟩
      · refine .inl ?_
        rw [after_snoc, hfresh, step_default hnone]
      · exact .inr ⟨n', hi', hg'⟩

theorem kept_primed {h : TcpHalf} {c : Call} {n : ℕ} {w' : Pass} {p : ℕ} {b : UInt8}
    (hk : (h.primed c).Kept n w' p b) : h.Kept n w' p b := by
  rw [primed_eq] at hk
  exact hk

end TcpHalf

/-- Runs that take neither slip are FIN-safe. -/
theorem finSafe_of_finClear (cs : List Call)
    (hclear : ({} : TcpHalf).Along TcpHalf.FinClear cs) : FinSafe cs := by
  have hstep : ∀ as c bs, cs = as ++ c :: bs → TcpHalf.GuardedAt as ∧
      (({} : TcpHalf).after as).FinClear c := by
    rintro as c bs rfl
    obtain ⟨has, hc⟩ := TcpHalf.along_append.mp hclear
    exact ⟨TcpHalf.guardedAt_of_finClear has, hc.1⟩
  refine ⟨?_, ?_, ?_⟩
  · intro as c bs hcs hopen hclosed
    obtain ⟨hg, hc⟩ := hstep as c bs hcs
    rcases hg.step hc with ⟨hfresh, hnone⟩ | ⟨n, n', -, -, hg', -⟩
    · simp [TcpHalf.after_snoc, hfresh, TcpHalf.step_default hnone] at hclosed
    · exact hg'.closed hclosed
  · intro as c bs n hcs hnext p b hheld
    obtain ⟨hg, hc⟩ := hstep as c bs hcs
    rcases hg.step hc with ⟨hfresh, -⟩ | ⟨m, n', hi, -, -, hold, -⟩
    · simp [hfresh] at hnext
    · obtain rfl : m = n := by
        rcases hg with hfresh | ⟨k, hk, -⟩
        · simp [hfresh] at hnext
        · obtain rfl := hk.sound.next_unique hnext
          exact hi.sound.next_unique (hk.primed c).1.sound.next
      refine (hold p b ?_).imp_left TcpHalf.kept_primed
      rw [TcpHalf.primed_eq]
      exact hheld
  · intro as c bs n hcs hnext p hcarries hmax
    obtain ⟨hg, hc⟩ := hstep as c bs hcs
    rcases hg.step hc with ⟨-, hnone⟩ | ⟨m, n', hi, -, -, -, hnew⟩
    · cases c with
      | accept seq syn fin tsNs data lim => simp [Call.origin?] at hnone
      | observe seq syn => cases hcarries
      | acknowledge ack tsNs gapTimeoutNs => cases hcarries
      | rstMatchesNext seq => cases hcarries
      | finalize tsNs => cases hcarries
    · obtain rfl := hi.sound.next_unique hnext
      exact (hnew p hcarries hmax).imp_left (Exists.imp fun _ ↦ TcpHalf.kept_primed)

/-- A FIN is announced ahead, at a position inside an already buffered segment, and never
acknowledged; then the hole before the buffered segment is filled. -/
def finInsideBufferRun : List Call :=
  [.accept 100 false false 0 [1, 2, 3, 4] ⟨64, 8, 9⟩,
    .accept 108 false false 0 [9, 10, 11, 12, 13, 14, 15, 16] ⟨64, 8, 9⟩,
    .accept 110 false true 0 [11, 12] ⟨64, 8, 9⟩,
    .accept 104 false false 0 [5, 6, 7, 8] ⟨64, 8, 9⟩]

/-- Emission carries the next expected byte over the FIN, and the half is closed. -/
theorem not_finSafe_finInsideBufferRun : ¬ FinSafe finInsideBufferRun := by
  intro h
  obtain ⟨f, hf, hv⟩ := h.closes (finInsideBufferRun.take 3)
    (.accept 104 false false 0 [5, 6, 7, 8] ⟨64, 8, 9⟩) [] rfl (by decide) (by decide)
  have hpend : (({} : TcpHalf).after finInsideBufferRun).pendingFin = some (2 ^ 32 + 112) := by
    decide
  obtain rfl : 2 ^ 32 + 112 = f := Option.some.inj (hpend.symm.trans hf)
  rcases hv with hack | ⟨as, c, bs, hcs, hann⟩
  · exact absurd hack (by decide)
  · have hnever : ({} : TcpHalf).Along (fun h c ↦ ¬ h.Announces c (2 ^ 32 + 112))
        finInsideBufferRun := by decide
    change finInsideBufferRun = as ++ c :: bs at hcs
    rw [hcs] at hnever
    exact (TcpHalf.along_append.mp hnever).2.1 hann

theorem finSafe_acknowledgedFinRun :
    (({} : TcpHalf).after TcpHalf.acknowledgedFinRun).finConsumed = true ∧
      FinSafe TcpHalf.acknowledgedFinRun :=
  ⟨by decide, finSafe_of_finClear TcpHalf.acknowledgedFinRun (by decide)⟩

end Bazalt.Flow
