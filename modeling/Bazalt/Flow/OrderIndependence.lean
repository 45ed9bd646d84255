import Bazalt.Flow.FirstSeen
import Bazalt.Flow.Sequence

/-!
# Order independence

Slices of one string that arrive in any order, without acknowledgements and FIN and
within the limits, give the string back, in consecutive chunks and without a gap,
exactly when no slice arrives wholly inside the part already emitted while nothing is
buffered.
-/

namespace Bazalt.Flow

open Lib OrdMap

namespace Pass

/-! ## Calls without acknowledgement, FIN and pressure -/

/-- From `w` to `w'` no gap is declared, the gap clock stands, and there is still no FIN
and no acknowledgement. -/
structure Calm (w w' : Pass) : Prop where
  gaps : w'.out.gaps = w.out.gaps
  clock : w'.half.gapStartedTsNs = w.half.gapStartedTsNs
  fin : w'.half.pendingFin = none
  ack : w'.half.peerAckAbs = none

theorem Calm.trans {w w' w'' : Pass} (h : Calm w w') (h' : Calm w' w'') : Calm w w'' :=
  ⟨h'.gaps.trans h.gaps, h'.clock.trans h.clock, h'.fin, h'.ack⟩

theorem consumeFinIfReady_of_no_fin {w : Pass} (hfin : w.half.pendingFin = none) :
    w.consumeFinIfReady = w := by
  simp [consumeFinIfReady, hfin]

theorem emit_calm {w : Pass} (hfin : w.half.pendingFin = none) (hack : w.half.peerAckAbs = none)
    (data : Bytes) (tsNs : ℕ) : Calm w (w.emit data tsNs) := by
  unfold emit
  split_ifs
  · exact ⟨rfl, rfl, hfin, hack⟩
  · rw [consumeFinIfReady_of_no_fin (w := w.push data tsNs) hfin]
    exact ⟨rfl, rfl, hfin, hack⟩

theorem flushOooLoop_calm (fuel : ℕ) : ∀ {w : Pass}, w.half.pendingFin = none →
    w.half.peerAckAbs = none → Calm w (flushOooLoop fuel w) := by
  induction fuel with
  | zero => exact fun hfin hack ↦ ⟨rfl, rfl, hfin, hack⟩
  | succ fuel ih =>
      intro w hfin hack
      have hrefl : Calm w w := ⟨rfl, rfl, hfin, hack⟩
      have hpop : ∀ segment, Calm w (w.popFirst segment) := fun _ ↦ ⟨rfl, rfl, hfin, hack⟩
      unfold flushOooLoop
      split_ifs
      · exact hrefl
      · split
        · rename_i expected firstKey segment hnext hfirst
          have hemit := fun data ↦ (hpop segment).trans (emit_calm (hpop segment).fin
            (hpop segment).ack data segment.tsNs)
          split_ifs
          · exact hrefl
          · exact (hpop segment).trans (ih (hpop segment).fin (hpop segment).ack)
          · exact (hemit _).trans (ih (hemit _).fin (hemit _).ack)
          · exact (hemit _).trans (ih (hemit _).fin (hemit _).ack)
        · exact hrefl

theorem flushOoo_calm {w : Pass} (hfin : w.half.pendingFin = none)
    (hack : w.half.peerAckAbs = none) : Calm w w.flushOoo :=
  flushOooLoop_calm _ hfin hack

theorem Inserts.calm {w w' : Pass} {lo hi : ℕ} {new : ℕ → UInt8 → Prop}
    (h : Inserts w w' lo hi new) (hfin : w.half.pendingFin = none)
    (hack : w.half.peerAckAbs = none) : Calm w w' := by
  refine ⟨?_, ?_, ?_, ?_⟩
  · rw [h.out]
  · rw [h.half]
  · rw [h.half]
    exact hfin
  · rw [h.half]
    exact hack

theorem acceptContiguous_calm {w : Pass} (hb : w.half.Buffered)
    (hfin : w.half.pendingFin = none) (hack : w.half.peerAckAbs = none)
    (start expected tsNs : ℕ) (data : Bytes) :
    Calm w (w.acceptContiguous start expected tsNs data).1 := by
  have hmark := (ite_eq_or_eq (start < expected) w.markRetransmit w).symm
  unfold acceptContiguous
  simp only
  generalize (if start < expected then w.markRetransmit else w) = w₀ at hmark ⊢
  have hw₀ : Calm w w₀ ∧ w₀.half.Buffered := by
    rcases hmark with rfl | rfl
    · exact ⟨⟨rfl, rfl, hfin, hack⟩, hb⟩
    · exact ⟨⟨rfl, rfl, hfin, hack⟩, hb⟩
  obtain ⟨hcalm, hb₀⟩ := hw₀
  generalize (if start < expected ∧ expected - start < data.length then expected - start
    else 0) = k
  split_ifs
  · exact hcalm.trans (emit_calm hcalm.fin hcalm.ack _ _)
  · have hins := (insertOooFirstSeen_inserts hb₀ (satAdd start k) tsNs (data.drop k)).calm
      hcalm.fin hcalm.ack
    exact (hcalm.trans hins).trans (flushOoo_calm hins.fin hins.ack)
  · exact hcalm

theorem recoverKnownAck_of_no_ack {w : Pass} (hack : w.half.peerAckAbs = none) :
    w.recoverKnownAck = w := by
  simp [recoverKnownAck, hack]

/-- The buffer is within its limits, so that `recoverOooPressure` has nothing to do. -/
def Within (w : Pass) (lim : Limits) : Prop :=
  w.half.outOfOrderBytes ≤ lim.maxOoo ∧ w.half.outOfOrder.size ≤ lim.maxOooSegments

theorem recoverOooPressure_of_within {w : Pass} {lim : Limits} (hlim : w.Within lim) :
    w.recoverOooPressure lim.maxOoo lim.maxOooSegments = w := by
  unfold recoverOooPressure recoverOooPressureLoop
  rw [if_neg]
  rintro (h | h)
  · exact absurd hlim.1 (by omega)
  · exact absurd hlim.2 (by omega)

/-- What `acceptData` stores before it looks at the limits. -/
def stored (w : Pass) (startAbs expected tsNs : ℕ) (data : Bytes) : Pass :=
  if expected < startAbs then w.acceptAhead startAbs tsNs data
  else (w.acceptContiguous startAbs expected tsNs data).1

theorem acceptData_calm {w : Pass} (hb : w.half.Buffered) (hfin : w.half.pendingFin = none)
    (hack : w.half.peerAckAbs = none) {start expected tsNs : ℕ} {data : Bytes} {lim : Limits}
    (hlim : data ≠ [] → (w.stored start expected tsNs data).Within lim) :
    Calm w (w.acceptData start expected tsNs data lim) := by
  unfold acceptData
  simp only
  unfold stored at hlim
  split_ifs with hempty hahead
  · exact ⟨rfl, rfl, hfin, hack⟩
  · have hw : Calm w (w.acceptAhead start tsNs data) := by
      have hins := insertOooFirstSeen_inserts
        (w := { w with out := { w.out with outOfOrder := true } }) hb start tsNs data
      have hcalm := hins.calm hfin hack
      exact ⟨hcalm.gaps, hcalm.clock, hcalm.fin, hcalm.ack⟩
    rw [if_pos hahead] at hlim
    rw [recoverKnownAck_of_no_ack hw.ack,
      recoverOooPressure_of_within (hlim (by simpa using hempty))]
    exact hw
  · have hw := acceptContiguous_calm hb hfin hack start expected tsNs data
    rw [if_neg hahead] at hlim
    have hlim := hlim (by simpa using hempty)
    generalize w.acceptContiguous start expected tsNs data = r at hw hlim ⊢
    obtain ⟨w', slow⟩ := r
    cases slow with
    | false => exact hw
    | true =>
        simp only
        rw [recoverKnownAck_of_no_ack hw.ack, recoverOooPressure_of_within hlim]
        exact hw

/-- Before the gap timeout, the gap clock keeps its reading, is cleared, or starts now. -/
theorem recoverOooTimeout_calm {w : Pass} (hfin : w.half.pendingFin = none)
    (hack : w.half.peerAckAbs = none) {maxAgeNs tsNs : ℕ}
    (hage : ∀ started, w.half.gapStartedTsNs = some started → tsNs - started < maxAgeNs) :
    ∃ clock, (clock = w.half.gapStartedTsNs ∨ clock = none ∨ clock = some tsNs) ∧
      Calm (w.stamp clock) (w.recoverOooTimeout maxAgeNs tsNs) := by
  unfold recoverOooTimeout
  split
  · split_ifs
    · exact ⟨none, .inr (.inl rfl), flushOoo_calm (w := w.stamp none) hfin hack⟩
    · split
      · exact ⟨some tsNs, .inr (.inr rfl), rfl, rfl, hfin, hack⟩
      · rename_i started hstarted
        rw [if_pos (hage started hstarted)]
        exact ⟨_, .inl rfl, rfl, rfl, hfin, hack⟩
  · exact ⟨none, .inr (.inl rfl), rfl, rfl, hfin, hack⟩

end Pass

namespace TcpHalf

theorem arrive_plain {h : TcpHalf} (hfin : h.pendingFin = none) (seq : BitVec 32) (syn : Bool)
    (data : Bytes) (n : ℕ) : h.arrive seq syn false data n =
      ⟨n, extendSeq (payloadSeq seq syn) n, { half := h }, data⟩ := by
  simp [arrive, Pass.truncateAtFin, hfin]

theorem observe_plain {h : TcpHalf} {n : ℕ} (hn : h.nextAbs = some n) (seq : BitVec 32) :
    h.observe seq false = h := by
  simp [observe, hn]

/-- An accept call without acknowledgement, FIN and pressure, before the gap timeout. -/
theorem accept_calm {h : TcpHalf} {n : ℕ} (hi : h.Idle n) (hopen : h.finConsumed = false)
    (hfin : h.pendingFin = none) (hack : h.peerAckAbs = none) {seq : BitVec 32} {tsNs : ℕ}
    {data : Bytes} {lim : Limits}
    (hlim : data ≠ [] → (Pass.stored { half := h } (extendSeq (payloadSeq seq false) n) n tsNs
      data).Within lim)
    (hage : ∀ started, h.gapStartedTsNs = some started → tsNs - started < lim.gapTimeoutNs) :
    ∃ clock, (clock = h.gapStartedTsNs ∨ clock = none ∨ clock = some tsNs) ∧
      Pass.Calm { half := { h with gapStartedTsNs := clock } }
        (h.accept seq false false tsNs data lim) := by
  have hdata := Pass.acceptData_calm (w := { half := h }) hi.sound.buffered hfin hack hlim
  simp only [accept, observe_plain hi.sound.next, hopen, Bool.false_eq_true, if_false,
    hi.sound.next, arrive_plain hfin, Arrival.settle]
  generalize ({ half := h } : Pass).acceptData (extendSeq (payloadSeq seq false) n) n tsNs data
    lim = w at hdata ⊢
  rw [if_neg (by simp [hdata.fin])]
  obtain ⟨clock, hclock, hcalm⟩ := Pass.recoverOooTimeout_calm hdata.fin hdata.ack
    (fun started hs ↦ hage started (hdata.clock.symm.trans hs))
  rw [Pass.consumeFinIfReady_of_no_fin hcalm.fin]
  exact ⟨clock, by rwa [hdata.clock] at hclock, hcalm.gaps.trans hdata.gaps, hcalm.clock,
    hcalm.fin, hcalm.ack⟩

theorem Does.open_of_no_fin {h : TcpHalf} {n n' : ℕ} {c : Call} {w' : Pass} (hi : h.Idle n)
    (hd : Does h n c w') (hi' : w'.half.Idle n') (hopen : h.finConsumed = false)
    (hfin : w'.half.pendingFin = none) : w'.half.finConsumed = false := by
  have hpath : ∀ {w m}, Pass.Path w w' → w.half.Sound m → w.half.finConsumed = false →
      w'.half.finConsumed = false := by
    intro w m hp hw hopen
    obtain ⟨es, hes⟩ := hp.reads hw hi'.sound
    rcases hes.lands with ⟨hsame, -⟩ | ⟨-, -, fin, hpend, -⟩
    · exact hsame.trans hopen
    · rw [(Pass.Path.frame hp).1, hpend] at hfin
      cases hfin
  cases hd with
  | @walk c w w' hnoted hmono hem hgaps hquiet hp =>
      refine hpath hp (hnoted.sound hi.sound) ?_
      rw [hnoted]
      exact hopen
  | @store seq syn fin tsNs data lim w w' hopen' hstores hp =>
      have hs := arrive_sound hi.sound hopen seq syn fin data
      have hfin' : (h.arrive seq syn fin data n).pass.half.finConsumed = false := by
        rw [(h.arrive_remarked seq syn fin data n).half]
        exact hopen
      obtain ⟨m, -, hw⟩ := hstores.sound hs hfin'
      exact hpath hp hw (hstores.half_frame.1.trans hfin')

/-- The limits are not exceeded when `accept` has stored the payload. -/
def WithinLimits (h : TcpHalf) : Call → Prop
  | .accept seq syn fin tsNs data lim =>
      let h := h.observe seq syn
      ∀ n ∈ h.nextAbs, h.finConsumed = false →
        let a := h.arrive seq syn fin data n
        a.data ≠ [] → (a.pass.stored a.startAbs n tsNs a.data).Within lim
  | _ => True

/-- Limits as wide as the sequence space are never exceeded. -/
theorem withinLimits_of_le {h : TcpHalf} {n : ℕ} (hi : h.Idle n) {seq : BitVec 32}
    {syn fin : Bool} {tsNs : ℕ} {data : Bytes} {lim : Limits} (hbytes : u64Max ≤ lim.maxOoo)
    (hsegments : u64Max ≤ lim.maxOooSegments) :
    h.WithinLimits (.accept seq syn fin tsNs data lim) := by
  intro m hm hopen a hne
  have hi := hi.observe seq syn
  obtain rfl := hi.sound.next_unique hm
  have hs : a.pass.half.Sound n := arrive_sound hi.sound hopen seq syn fin data
  have hopen' : a.pass.half.finConsumed = false := by
    rw [((h.observe seq syn).arrive_remarked seq syn fin data n).half]
    exact hopen
  obtain ⟨k, hk⟩ : ∃ k, (a.pass.stored a.startAbs n tsNs a.data).half.Sound k := by
    unfold Pass.stored
    split_ifs with hahead
    · obtain ⟨k, -, hk⟩ := (Pass.acceptAhead_stores hs.buffered hahead hne tsNs).sound hs hopen'
      exact ⟨k, hk⟩
    · obtain ⟨w₁, hstores, hp⟩ :=
        Pass.acceptContiguous_trail hs hopen' (not_lt.mp hahead) hne tsNs
      obtain ⟨k₁, -, hk₁⟩ := hstores.sound hs hopen'
      obtain ⟨k, -, hk⟩ := hp.sound hk₁
      exact ⟨k, hk⟩
  have hb := hk.buffered
  have htotal := hb.tidy.total_le (fun _ _ ↦ Nat.zero_le _) hb.bound (Nat.zero_le _)
  have hsize := hb.tidy.size_le_total
  have hcount := hb.bytes
  exact ⟨by omega, by omega⟩

theorem along_withinLimits {cs : List Call} : ∀ {h : TcpHalf} {n : ℕ}, h.Idle n →
    (∀ c ∈ cs, ∃ seq syn fin tsNs data lim, c = .accept seq syn fin tsNs data lim ∧
      u64Max ≤ lim.maxOoo ∧ u64Max ≤ lim.maxOooSegments) → h.Along WithinLimits cs := by
  induction cs with
  | nil => exact fun _ _ ↦ trivial
  | cons c cs ih =>
      intro h n hi hcs
      obtain ⟨seq, syn, fin, tsNs, data, lim, rfl, hbytes, hsegments⟩ := hcs c (by simp)
      obtain ⟨-, n', -, hi'⟩ := hi.step (.accept seq syn fin tsNs data lim)
      exact ⟨withinLimits_of_le hi hbytes hsegments,
        ih hi' fun d hd ↦ hcs d (List.mem_cons_of_mem _ hd)⟩

end TcpHalf

/-! ## Slices -/

/-- A slice of a string and the time of its arrival. -/
structure Slice where
  offset : ℕ
  len : ℕ
  tsNs : ℕ
  deriving DecidableEq, Repr

namespace Slice

def data (x : Slice) (s : Bytes) : Bytes := (s.drop x.offset).take x.len

/-- The segment that carries a slice of the stream `s` whose SYN had number `isn`. -/
def call (isn : BitVec 32) (s : Bytes) (lim : Limits) (x : Slice) : Call :=
  .accept (isn + 1 + BitVec.ofNat 32 x.offset) false false x.tsNs (x.data s) lim

/-- Some slice of the list contains index `i`. -/
def Cover (xs : List Slice) (i : ℕ) : Prop :=
  ∃ x ∈ xs, x.offset ≤ i ∧ i < x.offset + x.len

theorem data_getElem? (x : Slice) (s : Bytes) (i : ℕ) (b : UInt8) :
    (x.data s)[i]? = some b ↔ i < x.len ∧ s[x.offset + i]? = some b := by
  rw [data, List.getElem?_take]
  by_cases h : i < x.len
  · simp [h]
  · simp [h]

theorem length_data {x : Slice} {s : Bytes} (hx : x.offset + x.len ≤ s.length) :
    (x.data s).length = x.len := by
  rw [data, List.length_take, List.length_drop]
  omega

theorem cover_snoc (xs : List Slice) (x : Slice) (i : ℕ) :
    Cover (xs ++ [x]) i ↔ Cover xs i ∨ x.offset ≤ i ∧ i < x.offset + x.len := by
  constructor
  · rintro ⟨y, hy, hi⟩
    rcases List.mem_append.mp hy with hy | hy
    · exact .inl ⟨y, hy, hi⟩
    · rw [List.mem_singleton.mp hy] at hi
      exact .inr hi
  · rintro (⟨y, hy, hi⟩ | hi)
    · exact ⟨y, List.mem_append_left _ hy, hi⟩
    · exact ⟨x, by simp, hi⟩

end Slice

/-- The position of the first byte after the SYN `isn`. -/
def synOrigin (isn : BitVec 32) : ℕ := initialSeqEpoch + (isn + 1).toNat

theorem extendSeq_slice (isn : BitVec 32) {m k : ℕ} (hm : m < 2 ^ 31) (hk : k < 2 ^ 31) :
    extendSeq (payloadSeq (isn + 1 + BitVec.ofNat 32 k) false) (synOrigin isn + m) =
      synOrigin isn + k := by
  have hwire : payloadSeq (isn + 1 + BitVec.ofNat 32 k) false =
      BitVec.ofNat 32 (synOrigin isn + k) := by
    refine BitVec.eq_of_toNat_eq ?_
    simp only [payloadSeq, synOrigin, initialSeqEpoch, Bool.toNat_false, BitVec.toNat_add,
      BitVec.toNat_ofNat]
    omega
  have hlt := (isn + 1).isLt
  rw [hwire]
  refine extendSeq_ofNat (by omega) (by omega) ?_
  unfold synOrigin initialSeqEpoch u64Max
  omega

/-- After the slices `xs` of `s` the half has emitted the first `m` bytes, which the
slices contain, and holds what they contain beyond. -/
structure Assembled (s : Bytes) (o m : ℕ) (xs : List Slice) (h : TcpHalf) : Prop where
  idle : h.Idle (o + m)
  opened : h.finConsumed = false
  fin : h.pendingFin = none
  ack : h.peerAckAbs = none
  offset : h.streamOffset = m
  le : m ≤ s.length
  covered : ∀ i, i < m → Slice.Cover xs i
  held : ∀ i b, m ≤ i → (h.Held (o + i) b ↔ Slice.Cover xs i ∧ s[i]? = some b)
  clock : ∀ t, h.gapStartedTsNs = some t → ∃ x ∈ xs, x.tsNs = t

namespace Assembled

variable {isn : BitVec 32} {s : Bytes} {m : ℕ} {xs : List Slice} {h : TcpHalf} {x : Slice}
  {lim : Limits}

theorem primed_call (ha : Assembled s (synOrigin isn) m xs h) :
    h.primed (x.call isn s lim) = h :=
  TcpHalf.observe_plain ha.idle.sound.next _

/-- Once the payload is stored, exactly the bytes of the slices so far are known. -/
theorem known_iff (ha : Assembled s (synOrigin isn) m xs h) (hs : s.length < 2 ^ 31)
    (hx : x.offset + x.len ≤ s.length) {i : ℕ} (hi : m ≤ i) (b : UInt8) :
    h.Known (x.call isn s lim) (synOrigin isn + i) b ↔
      Slice.Cover (xs ++ [x]) i ∧ s[i]? = some b := by
  have hm := ha.le
  have hstart := extendSeq_slice isn (m := m) (k := x.offset) (by omega) (by omega)
  have hadm : h.admitted (x.call isn s lim) (synOrigin isn + i) = some b ↔ _ :=
    TcpHalf.admitted_accept ha.idle.sound.next ha.opened
      (TcpHalf.observe_plain ha.idle.sound.next _) (by omega)
  rw [TcpHalf.arrive_plain ha.fin, hstart] at hadm
  rw [TcpHalf.Known, hadm, Slice.cover_snoc]
  simp only [ha.held i _ hi, Nat.add_sub_add_left, Nat.add_le_add_iff_left,
    Slice.data_getElem?]
  constructor
  · rintro (⟨hc, hb⟩ | ⟨-, hle, hlt, hb⟩)
    · exact ⟨.inl hc, hb⟩
    · rw [show x.offset + (i - x.offset) = i by omega] at hb
      exact ⟨.inr ⟨hle, by omega⟩, hb⟩
  · rintro ⟨hc, hb⟩
    by_cases hold : Slice.Cover xs i
    · exact .inl ⟨hold, hb⟩
    · obtain ⟨hle, hlt⟩ := hc.resolve_left hold
      refine .inr ⟨fun y hy ↦ hold hy.1, hle, by omega, ?_⟩
      rwa [show x.offset + (i - x.offset) = i by omega]

theorem bringsNew (ha : Assembled s (synOrigin isn) m xs h) (hs : s.length < 2 ^ 31)
    (hx : x.offset + x.len ≤ s.length)
    (hnew : h.outOfOrder.isEmpty → 0 < x.len → m < x.offset + x.len) :
    h.BringsNew (x.call isn s lim) := by
  have hm := ha.le
  have horigin : synOrigin isn < 2 ^ 33 := by
    have := (isn + 1).isLt
    unfold synOrigin initialSeqEpoch
    omega
  simp only [TcpHalf.BringsNew, Slice.call, TcpHalf.observe_plain ha.idle.sound.next]
  intro n hn _
  obtain rfl := ha.idle.sound.next_unique hn
  rw [extendSeq_slice isn (m := m) (k := x.offset) (by omega) (by omega), Slice.length_data hx]
  refine ⟨by unfold u64Max; omega, fun hempty hne ↦ ?_⟩
  have hlen : 0 < x.len := by
    rw [← Slice.length_data hx]
    exact List.length_pos_iff.mpr hne
  have := hnew hempty hlen
  omega

theorem calm (ha : Assembled s (synOrigin isn) m xs h)
    (hlim : h.WithinLimits (x.call isn s lim))
    (hage : ∀ y ∈ xs, x.tsNs - y.tsNs < lim.gapTimeoutNs) :
    ∃ clock, (clock = h.gapStartedTsNs ∨ clock = none ∨ clock = some x.tsNs) ∧
      Pass.Calm { half := { h with gapStartedTsNs := clock } } (h.step (x.call isn s lim)) := by
  simp only [TcpHalf.WithinLimits, Slice.call, TcpHalf.observe_plain ha.idle.sound.next,
    TcpHalf.arrive_plain ha.fin] at hlim
  refine TcpHalf.accept_calm ha.idle ha.opened ha.fin ha.ack
    (fun hne ↦ hlim _ ha.idle.sound.next ha.opened hne) fun started hst ↦ ?_
  obtain ⟨y, hy, rfl⟩ := ha.clock started hst
  exact hage y hy

/-- What arrives next and is not behind: the step lemma. -/
theorem step (ha : Assembled s (synOrigin isn) m xs h) (hs : s.length < 2 ^ 31)
    (hx : x.offset + x.len ≤ s.length) (hlim : h.WithinLimits (x.call isn s lim))
    (hage : ∀ y ∈ xs, x.tsNs - y.tsNs < lim.gapTimeoutNs)
    (hnew : h.outOfOrder.isEmpty → 0 < x.len → m < x.offset + x.len) :
    ∃ m', m ≤ m' ∧ Assembled s (synOrigin isn) m' (xs ++ [x]) (h.step (x.call isn s lim)).half ∧
      (h.step (x.call isn s lim)).out.gaps = [] ∧
      Span.Consecutive m ((h.step (x.call isn s lim)).out.emitted.map (·.placed)) ∧
      ((h.step (x.call isn s lim)).out.emitted.map (·.placed)).flatMap Prod.snd =
        (s.drop m).take (m' - m) := by
  have hm := ha.le
  have hstart := extendSeq_slice isn (m := m) (k := x.offset) (by omega) (by omega)
  have hprimed : h.primed (x.call isn s lim) = h := ha.primed_call
  have hbrings : h.BringsNew (x.call isn s lim) := ha.bringsNew hs hx hnew
  have hcalm := ha.calm hlim hage
  obtain ⟨hdoes, n', -, hi'⟩ := TcpHalf.step_does ha.idle (x.call isn s lim) hprimed
  obtain ⟨es, hes⟩ := hdoes.tells ha.idle hprimed hi' hbrings
  obtain ⟨clock, hclock, hcalm⟩ := hcalm
  have hopen := hdoes.open_of_no_fin ha.idle hi' ha.opened hcalm.fin
  obtain ⟨hn', hheld⟩ := hes.rest hopen
  have hchunks := hes.emits.chunks
  have hgaps := hes.emits.gaps
  have hoff := hes.emits.offset
  simp only [List.map_nil, List.nil_append, ha.offset] at hchunks hgaps hoff
  have hnone : (h.step (x.call isn s lim)).out.gaps = [] := hcalm.gaps
  rw [hnone] at hgaps
  obtain ⟨hcons, hlen, hsym⟩ := hes.delivers.of_no_gap hgaps.symm
  have hbytes : ∀ i b, (Span.symbols es)[i]? = some b →
      Slice.Cover (xs ++ [x]) (m + i) ∧ s[m + i]? = some b := by
    intro i b hb
    have := hsym i b hb
    rw [Nat.add_assoc] at this
    exact (ha.known_iff hs hx (by omega) b).mp this
  have hsyms : Span.symbols es = (s.drop m).take (Span.width es) := by
    refine List.ext_getElem? fun i ↦ ?_
    rw [List.getElem?_take, List.getElem?_drop]
    by_cases hi : i < Span.width es
    · rw [if_pos hi]
      have hget := List.getElem?_eq_getElem (hlen ▸ hi)
      rw [hget, (hbytes i _ hget).2]
    · rw [if_neg hi, List.getElem?_eq_none (by omega)]
  have hle : m + Span.width es ≤ s.length := by
    have := congrArg List.length hsyms
    rw [hlen, List.length_take, List.length_drop] at this
    omega
  refine ⟨m + Span.width es, by omega, ⟨?_, hopen, hcalm.fin, hcalm.ack, hoff, hle, ?_, ?_, ?_⟩,
    hnone, ?_, ?_⟩
  · rw [← Nat.add_assoc, ← hn']
    exact hi'
  · intro i hi
    by_cases him : i < m
    · exact (Slice.cover_snoc xs x i).mpr (.inl (ha.covered i him))
    · have hget := List.getElem?_eq_getElem (l := Span.symbols es) (i := i - m) (by omega)
      have hcover := (hbytes (i - m) _ hget).1
      rwa [show m + (i - m) = i by omega] at hcover
  · intro i b hi
    rw [hheld _ b (by omega), ha.known_iff hs hx (by omega) b]
  · intro t ht
    rw [hcalm.clock] at ht
    rcases hclock with hc | hc | hc
    · obtain ⟨y, hy, hyt⟩ := ha.clock t (hc.symm.trans ht)
      exact ⟨y, List.mem_append_left _ hy, hyt⟩
    · simp [hc] at ht
    · exact ⟨x, by simp, Option.some.inj (hc.symm.trans ht)⟩
  · rw [hchunks]
    exact hcons
  · rw [hchunks, Span.flatMap_chunksAt, hsyms]
    simp

/-- The next expected byte is in no slice so far. -/
theorem not_cover (ha : Assembled s (synOrigin isn) m xs h)
    (hxs : ∀ x ∈ xs, x.offset + x.len ≤ s.length) : ¬ Slice.Cover xs m := by
  intro hc
  obtain ⟨x, hx, -, hlt⟩ := id hc
  have hlen := hxs x hx
  have hget := List.getElem?_eq_getElem (l := s) (i := m) (by omega)
  obtain ⟨e, he, hle, -⟩ := (ha.held m _ le_rfl).mpr ⟨hc, hget⟩
  exact absurd (ha.idle.ahead e he) (by omega)

/-- Nothing is buffered exactly when the slices so far cover an initial part. -/
theorem isEmpty_iff_cover (ha : Assembled s (synOrigin isn) m xs h)
    (hxs : ∀ x ∈ xs, x.offset + x.len ≤ s.length) :
    h.outOfOrder.isEmpty ↔ ∀ i, Slice.Cover xs i ↔ i < m := by
  rw [OrdMap.isEmpty_iff]
  constructor
  · intro hempty i
    refine ⟨fun hc ↦ ?_, ha.covered i⟩
    by_contra hle
    obtain ⟨x, hx, -, hlt⟩ := id hc
    have hlen := hxs x hx
    have hget := List.getElem?_eq_getElem (l := s) (i := i) (by omega)
    obtain ⟨e, he, -⟩ := (ha.held i _ (not_lt.mp hle)).mpr ⟨hc, hget⟩
    simp [hempty] at he
  · intro hcover
    by_contra hne
    obtain ⟨e, he⟩ := List.exists_mem_of_ne_nil _ hne
    have hpos := ha.idle.sound.buffered.tidy.length_pos he
    have hahead := ha.idle.ahead e he
    have hheld : h.Held (synOrigin isn + (e.1 - synOrigin isn)) (e.2.data[0]) := by
      refine ⟨e, he, by omega, ?_⟩
      rw [show synOrigin isn + (e.1 - synOrigin isn) - e.1 = 0 by omega]
      exact List.getElem?_eq_getElem hpos
    have hc := ((ha.held (e.1 - synOrigin isn) _ (by omega)).mp hheld).1
    have := (hcover _).mp hc
    omega

/-- The run lemma, over the slices still to come. -/
theorem run (bs : List Slice) : ∀ {m : ℕ} {as : List Slice} {h : TcpHalf},
    Assembled s (synOrigin isn) m as h → s.length < 2 ^ 31 →
    (∀ x ∈ as ++ bs, x.offset + x.len ≤ s.length) →
    h.Along TcpHalf.WithinLimits (bs.map (Slice.call isn s lim)) →
    (∀ x ∈ as ++ bs, ∀ y ∈ as ++ bs, x.tsNs - y.tsNs < lim.gapTimeoutNs) →
    (∀ cs x ds, bs = cs ++ x :: ds → 0 < x.len →
      ∀ k, (∀ i, Slice.Cover (as ++ cs) i ↔ i < k) → k < x.offset + x.len) →
    ∃ m', m ≤ m' ∧
      Assembled s (synOrigin isn) m' (as ++ bs) (h.after (bs.map (Slice.call isn s lim))) ∧
      declaredGaps (h.outcomes (bs.map (Slice.call isn s lim))) = [] ∧
      Span.Consecutive m (emittedChunks (h.outcomes (bs.map (Slice.call isn s lim)))) ∧
      (emittedChunks (h.outcomes (bs.map (Slice.call isn s lim)))).flatMap Prod.snd =
        (s.drop m).take (m' - m) := by
  induction bs with
  | nil =>
      intro m as h ha _ _ _ _ _
      rw [List.append_nil]
      exact ⟨m, le_rfl, ha, rfl, trivial, by simp [emittedChunks, TcpHalf.outcomes]⟩
  | cons x bs ih =>
      intro m as h ha hs hxs hlim hage hnew
      have hxs' : ∀ y ∈ as, y.offset + y.len ≤ s.length := fun y hy ↦ hxs y (by simp [hy])
      obtain ⟨m₁, hm₁, ha₁, hgap, hcons, hbytes⟩ := ha.step hs (hxs x (by simp)) hlim.1
        (fun y hy ↦ hage x (by simp) y (by simp [hy]))
        (fun hempty hlen ↦ hnew [] x bs rfl hlen m
          (by simpa using (ha.isEmpty_iff_cover hxs').mp hempty))
      obtain ⟨m₂, hm₂, ha₂, hgap₂, hcons₂, hbytes₂⟩ := ih ha₁ hs (by simpa using hxs) hlim.2
        (by simpa using hage) (fun cs y ds hcs hlen k hk ↦
          hnew (x :: cs) y ds (by rw [hcs]; rfl) hlen k (by simpa using hk))
      have hlen : m + ((s.drop m).take (m₁ - m)).length = m₁ := by
        have := ha₁.le
        rw [List.length_take, List.length_drop]
        omega
      rw [List.append_assoc] at ha₂
      refine ⟨m₂, hm₁.trans hm₂, ha₂, ?_, ?_, ?_⟩
      · rw [List.map_cons, TcpHalf.outcomes, declaredGaps, List.flatMap_cons, hgap]
        exact hgap₂
      · rw [List.map_cons, TcpHalf.outcomes, emittedChunks, List.flatMap_cons]
        refine Span.consecutive_append hcons ?_
        rw [hbytes, hlen]
        exact hcons₂
      · rw [List.map_cons, TcpHalf.outcomes, emittedChunks, List.flatMap_cons,
          List.flatMap_append, hbytes]
        rw [emittedChunks] at hbytes₂
        rw [hbytes₂]
        have hsplit : (s.drop m).take (m₂ - m) =
            (s.drop m).take (m₁ - m) ++ ((s.drop m).drop (m₁ - m)).take (m₂ - m₁) := by
          rw [← List.take_add]
          congr 1
          omega
        rw [hsplit, List.drop_drop, show m + (m₁ - m) = m₁ by omega]

/-- The defect: a slice that is wholly behind is emitted again when nothing is buffered. -/
theorem replay (ha : Assembled s (synOrigin isn) m xs h) (hs : s.length < 2 ^ 31)
    (hx : x.offset + x.len ≤ m) (hlen : 0 < x.len) (hempty : h.outOfOrder.isEmpty) :
    ∃ rest, (h.step (x.call isn s lim)).out.emitted.map (·.placed) = (m, x.data s) :: rest := by
  have hm := ha.le
  have hstart := extendSeq_slice isn (m := m) (k := x.offset) (by omega) (by omega)
  have hdata : (x.data s).length = x.len := Slice.length_data (by omega)
  obtain ⟨hdoes, n', -, hi'⟩ := TcpHalf.step_does ha.idle (x.call isn s lim) ha.primed_call
  generalize hw' : h.step (x.call isn s lim) = w' at hdoes hi' ⊢
  cases hdoes with
  | walk _ _ _ _ hquiet _ =>
      exact absurd rfl (hquiet.resolve_left (by simp [ha.opened]) _ _ _ _ _ _)
  | @store _ _ _ _ _ _ w _ hopen hstores hp =>
      rw [TcpHalf.arrive_plain ha.fin, hstart] at hstores
      have hnil := OrdMap.isEmpty_iff.mp hempty
      cases hstores with
      | nothing hdata₀ =>
          have hzero : (x.data s).length = 0 := congrArg List.length hdata₀
          omega
      | buffer hne hcase hlo hins =>
          rcases hcase with hcase | hcase
          · omega
          · exact absurd hnil hcase
      | direct hle hlt =>
          simp only at hlt
          omega
      | replay hne hle hemp =>
          have hw := Pass.push_sound (w := ({ half := h } : Pass).markRetransmit) ha.idle.sound hnil
            hopen (x.data s) x.tsNs
          obtain ⟨es, hes⟩ := hp.reads hw hi'.sound
          have hchunks := hes.emits.chunks
          simp only [Pass.push, Pass.markRetransmit, List.nil_append, List.map_cons, List.map_nil,
            List.cons_append, ha.offset, ReassembledChunk.placed] at hchunks
          exact ⟨_, hchunks⟩

end Assembled

/-! ## The law -/

/-- The string comes back in consecutive chunks, without a gap. -/
structure Restores (s : Bytes) (os : List ReassemblyOutcome) : Prop where
  bytes : (emittedChunks os).flatMap Prod.snd = s
  consecutive : Span.Consecutive 0 (emittedChunks os)
  no_gap : declaredGaps os = []

/-- The SYN is observed and then the slices of `s` are accepted. -/
def sliceRun (isn : BitVec 32) (s : Bytes) (lim : Limits) (xs : List Slice) : List Call :=
  .observe isn true :: xs.map (Slice.call isn s lim)

/-- Whenever the slices before it cover an initial part and nothing else, a slice that is
not empty reaches out of that part. -/
def Slice.ReachOut (xs : List Slice) : Prop :=
  ∀ as x bs, xs = as ++ x :: bs → 0 < x.len →
    ∀ m, (∀ i, Slice.Cover as i ↔ i < m) → m < x.offset + x.len

theorem assembled_start (isn : BitVec 32) (s : Bytes) :
    Assembled s (synOrigin isn) 0 [] (({} : TcpHalf).observe isn true) := by
  have hidle := TcpHalf.observe_fresh isn true
  refine ⟨hidle, rfl, rfl, rfl, rfl, Nat.zero_le _, by simp, fun i b _ ↦ ?_, fun t ht ↦ ?_⟩
  · constructor
    · exact fun hb ↦ absurd hb (OrdMap.not_holds_empty _ b)
    · rintro ⟨⟨x, hx, -⟩, -⟩
      cases hx
  · cases ht

/-- The slices before `bs` have been assembled, if they reach out. -/
theorem assembled_run {isn : BitVec 32} {s : Bytes} {lim : Limits} {as bs : List Slice}
    (hs : s.length < 2 ^ 31) (hxs : ∀ x ∈ as ++ bs, x.offset + x.len ≤ s.length)
    (hage : ∀ x ∈ as ++ bs, ∀ y ∈ as ++ bs, x.tsNs - y.tsNs < lim.gapTimeoutNs)
    (hlim : ({} : TcpHalf).Along TcpHalf.WithinLimits (sliceRun isn s lim (as ++ bs)))
    (hreach : Slice.ReachOut as) :
    ∃ m h, Assembled s (synOrigin isn) m as h ∧
      Restores (s.take m) (({} : TcpHalf).outcomes (sliceRun isn s lim as)) ∧
      ({} : TcpHalf).outcomes (sliceRun isn s lim (as ++ bs)) =
        ({} : TcpHalf).outcomes (sliceRun isn s lim as) ++
          h.outcomes (bs.map (Slice.call isn s lim)) := by
  have hlim' := hlim.2
  rw [List.map_append] at hlim'
  obtain ⟨m, -, ha, hgap, hcons, hbytes⟩ := (assembled_start isn s).run as hs
    (fun x hx ↦ hxs x (by simpa using .inl hx)) (TcpHalf.along_append.mp hlim').1
    (fun x hx y hy ↦ hage x (by simpa using .inl hx) y (by simpa using .inl hy))
    (by simpa [Slice.ReachOut] using hreach)
  refine ⟨m, _, ha, ⟨?_, hcons, hgap⟩, ?_⟩
  · simp only [Nat.sub_zero, List.drop_zero] at hbytes
    exact hbytes
  · rw [sliceRun, sliceRun, List.map_append, ← List.cons_append, TcpHalf.outcomes_append]
    rfl

theorem not_reachOut_first {xs : List Slice} (hno : ¬ Slice.ReachOut xs) :
    ∃ as x bs m, xs = as ++ x :: bs ∧ Slice.ReachOut as ∧ 0 < x.len ∧
      (∀ i, Slice.Cover as i ↔ i < m) ∧ x.offset + x.len ≤ m := by
  induction xs using List.reverseRecOn with
  | nil => exact absurd (fun as x bs h ↦ by simp at h) hno
  | append_singleton xs y ih =>
      by_cases hxs : Slice.ReachOut xs
      · -- the last slice is the one that does not reach out
        unfold Slice.ReachOut at hno
        push Not at hno
        obtain ⟨as, x, bs, heq, hlen, m, hcover, hle⟩ := hno
        rcases List.eq_nil_or_concat bs with rfl | ⟨bs', z, rfl⟩
        · obtain ⟨rfl, hyx⟩ := List.append_inj' heq rfl
          exact ⟨xs, x, [], m, heq, hxs, hlen, hcover, hle⟩
        · have hsplit : xs ++ [y] = (as ++ x :: bs') ++ [z] := by simpa using heq
          obtain ⟨rfl, -⟩ := List.append_inj' hsplit rfl
          exact absurd (hxs as x bs' rfl hlen m hcover) (by omega)
      · obtain ⟨as, x, bs, m, rfl, h⟩ := ih hxs
        exact ⟨as, x, bs ++ [y], m, by simp, h⟩

/-- Slices that cover a string restore it, whatever the string, exactly when they reach
out. -/
theorem restores_iff_reachOut (isn : BitVec 32) (lim : Limits) (xs : List Slice) {n : ℕ}
    (hn : n < 2 ^ 31) (hxs : ∀ x ∈ xs, x.offset + x.len ≤ n)
    (hcover : ∀ i, i < n → Slice.Cover xs i)
    (hage : ∀ x ∈ xs, ∀ y ∈ xs, x.tsNs - y.tsNs < lim.gapTimeoutNs)
    (hlim : ∀ s : Bytes, s.length = n →
      ({} : TcpHalf).Along TcpHalf.WithinLimits (sliceRun isn s lim xs)) :
    (∀ s : Bytes, s.length = n →
      Restores s (({} : TcpHalf).outcomes (sliceRun isn s lim xs))) ↔ Slice.ReachOut xs := by
  constructor
  · intro hall
    by_contra hno
    obtain ⟨as, x, bs, m, rfl, hreach, hlen, has, hle⟩ := not_reachOut_first hno
    -- a string in which the replayed slice differs from what should come next
    obtain ⟨s, hs, hdiff⟩ : ∃ s : Bytes, s.length = n ∧
        (m < n → s[m]? ≠ s[x.offset]?) := by
      refine ⟨(List.replicate n 0).set m 1, by simp, fun hmn ↦ ?_⟩
      rw [List.getElem?_set_self (by simpa using hmn), List.getElem?_set_ne (by omega),
        List.getElem?_replicate]
      rw [if_pos (by omega)]
      decide
    obtain ⟨k, h, ha, hrest, hout⟩ := assembled_run (by omega) (hs ▸ hxs) hage (hlim s hs) hreach
    have hbound : ∀ y ∈ as, y.offset + y.len ≤ s.length := fun y hy ↦ hs ▸ hxs y (by simp [hy])
    obtain rfl : k = m := by
      have h₁ := ha.not_cover hbound
      have h₂ := ha.covered
      rw [has] at h₁
      by_contra hne
      rcases Nat.lt_or_gt_of_ne hne with hlt | hlt
      · exact h₁ hlt
      · exact absurd ((has m).mp (h₂ m hlt)) (by omega)
    obtain ⟨rest, hreplay⟩ := ha.replay (by omega) hle hlen
      ((ha.isEmpty_iff_cover hbound).mpr has)
    have hbytes := (hall s hs).bytes
    rw [hout, emittedChunks, List.flatMap_append, ← emittedChunks, List.flatMap_append,
      hrest.bytes, List.map_cons, TcpHalf.outcomes, List.flatMap_cons, hreplay, List.cons_append,
      List.flatMap_cons] at hbytes
    have hdata : (x.data s).length = x.len := Slice.length_data (hs ▸ hxs x (by simp))
    have hmn := ha.le
    by_cases hlt : k < n
    · have hget : (x.data s)[0]? = s[x.offset]? := by
        rw [Slice.data, List.getElem?_take, if_pos hlen, List.getElem?_drop, Nat.add_zero]
      have htake : (s.take k).length = k := by
        rw [List.length_take]
        omega
      have hk := congrArg (fun t : Bytes ↦ t[k]?) hbytes
      simp only at hk
      rw [List.getElem?_append_right htake.le, htake, Nat.sub_self,
        List.getElem?_append_left (by omega), hget] at hk
      exact hdiff hlt hk.symm
    · have := congrArg List.length hbytes
      simp only [List.length_append, List.length_take, hdata] at this
      omega
  · intro hreach s hs
    rw [← List.append_nil xs] at hxs hage hlim
    obtain ⟨m, h, ha, hrest, -⟩ := assembled_run (by omega) (hs ▸ hxs) hage (hlim s hs) hreach
    have hm : m = s.length := by
      have hle := ha.le
      by_contra hne
      exact ha.not_cover (fun x hx ↦ hs ▸ hxs x (by simpa using hx)) (hcover m (by omega))
    rwa [hm, List.take_length] at hrest

theorem sliceRun_withinLimits (isn : BitVec 32) (s : Bytes) (xs : List Slice) (timeoutNs : ℕ) :
    ({} : TcpHalf).Along TcpHalf.WithinLimits
      (sliceRun isn s ⟨u64Max, u64Max, timeoutNs⟩ xs) := by
  refine ⟨trivial, TcpHalf.along_withinLimits (TcpHalf.observe_fresh isn true) ?_⟩
  intro c hc
  obtain ⟨x, -, rfl⟩ := List.mem_map.mp hc
  exact ⟨_, _, _, _, _, _, rfl, le_rfl, le_rfl⟩

/-- A slice, its copy, and the rest of the string. -/
def repeatedSlices : List Slice := [⟨0, 2, 0⟩, ⟨0, 2, 0⟩, ⟨2, 2, 0⟩]

/-- The slices cover the string within all limits, and the string does not come back. -/
theorem not_restores_repeatedSlices :
    (∀ i, i < 4 → Slice.Cover repeatedSlices i) ∧
      ({} : TcpHalf).Along TcpHalf.WithinLimits
        (sliceRun 99 [1, 2, 3, 4] ⟨u64Max, u64Max, 9⟩ repeatedSlices) ∧
      ¬ Restores [1, 2, 3, 4] (({} : TcpHalf).outcomes
        (sliceRun 99 [1, 2, 3, 4] ⟨u64Max, u64Max, 9⟩ repeatedSlices)) := by
  refine ⟨fun i hi ↦ ?_, sliceRun_withinLimits _ _ _ _, fun h ↦ ?_⟩
  · by_cases h : i < 2
    · exact ⟨⟨0, 2, 0⟩, by decide, by simp, by simpa using h⟩
    · exact ⟨⟨2, 2, 0⟩, by decide, not_lt.mp h, by simpa using hi⟩
  · exact absurd h.bytes (by decide)

/-- The second half, part of it again, and an overlapping first half. -/
def shuffledSlices : List Slice := [⟨2, 2, 0⟩, ⟨2, 1, 0⟩, ⟨0, 3, 0⟩]

theorem restores_shuffledSlices : Slice.ReachOut shuffledSlices ∧ ∀ s : Bytes, s.length = 4 →
    Restores s (({} : TcpHalf).outcomes (sliceRun 99 s ⟨u64Max, u64Max, 9⟩ shuffledSlices)) := by
  have hreach : Slice.ReachOut shuffledSlices := by
    intro as x bs heq hlen m hcover
    rcases as with - | ⟨a, - | ⟨b, - | ⟨c, as⟩⟩⟩
    · cases heq
      have : ¬ 0 < m := fun h ↦ by simpa [Slice.Cover] using (hcover 0).mpr h
      simp only
      omega
    · cases heq
      have h₂ : 2 < m := (hcover 2).mp ⟨⟨2, 2, 0⟩, by simp⟩
      have h₀ := (hcover 0).mpr (by omega)
      simp [Slice.Cover] at h₀
    · cases heq
      have h₂ : 2 < m := (hcover 2).mp ⟨⟨2, 2, 0⟩, by simp⟩
      have h₀ := (hcover 0).mpr (by omega)
      simp [Slice.Cover] at h₀
    · simp [shuffledSlices] at heq
  refine ⟨hreach, (restores_iff_reachOut 99 ⟨u64Max, u64Max, 9⟩ shuffledSlices (n := 4) (by decide)
    (by decide) ?_ (by decide) ?_).mpr hreach⟩
  · intro i hi
    by_cases h : i < 3
    · exact ⟨⟨0, 3, 0⟩, by decide, by simp, by simpa using h⟩
    · exact ⟨⟨2, 2, 0⟩, by decide, by simp only; omega, by simpa using hi⟩
  · exact fun s _ ↦ sliceRun_withinLimits 99 s shuffledSlices 9

end Bazalt.Flow
