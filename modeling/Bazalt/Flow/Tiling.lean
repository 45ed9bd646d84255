import Bazalt.Flow.Calls

/-!
# Stream tiling

The chunks and gaps of a whole run, laid out by offset, tile the stream from zero
to `streamOffset`, and the next expected sequence number keeps its distance from
the origin, one more once FIN was consumed in its place.
-/

namespace Bazalt.Flow

open Lib OrdMap

namespace Pass

theorem Path.of_closed {w w' : Pass} (hp : Path w w') (hfin : w.half.finConsumed = true) :
    ∃ ts, w' = w.stamp ts := by
  induction hp with
  | refl => exact ⟨w.half.gapStartedTsNs, rfl⟩
  | tail _ hs ih =>
      obtain ⟨ts, rfl⟩ := ih
      obtain ⟨ts', rfl⟩ := hs.of_closed hfin
      exact ⟨ts', rfl⟩

theorem Emits.marked {w w' : Pass} {es : List (Span UInt8)} (h : Emits w w' es) :
    Emits w w'.markRetransmit es :=
  ⟨h.chunks, h.gaps, h.offset⟩

/-- Where a call that started at `n` leaves the half after the spans `es`. -/
def Advances (h : TcpHalf) (n : ℕ) (w' : Pass) (n' : ℕ) (es : List (Span UInt8)) : Prop :=
  h.finConsumed = false ∧ w'.half.finConsumed = false ∧ n' = n + Span.width es ∨
    h.finConsumed = false ∧ w'.half.finConsumed = true ∧
      (∃ fin, w'.half.pendingFin = some fin ∧ fin ≤ n + Span.width es ∧
        n' = if fin = n + Span.width es then satAdd (n + Span.width es) 1
          else n + Span.width es) ∨
    h.finConsumed = true ∧ w'.half.finConsumed = true ∧ es = [] ∧ n' = n ∧
      w'.half.pendingFin = h.pendingFin

theorem Path.advances {h : TcpHalf} {n n' : ℕ} {w w' : Pass} (n₀ : ℕ)
    (es : List (Span UInt8)) (hp : Path w w') (hw : w.half.Sound n) (hw' : w'.half.Sound n')
    (hfin : w.half.finConsumed = h.finConsumed) (hopen : h.finConsumed = false)
    (hn : n = n₀ + Span.width es) :
    ∃ fs, Emits w w' fs ∧ (∀ e ∈ fs, 0 < e.length) ∧ Advances h n₀ w' n' (es ++ fs) := by
  obtain ⟨fs, hfs⟩ := hp.reads hw hw'
  refine ⟨fs, hfs.emits, hfs.delivers.length_pos, ?_⟩
  have hwidth : n₀ + Span.width (es ++ fs) = n + Span.width fs := by
    rw [Span.width_append, hn, Nat.add_assoc]
  rw [Advances, hwidth]
  rcases hfs.lands with ⟨hkeep, hn', -⟩ | ⟨-, hclosed, fin, hpend, hle, hn'⟩
  · exact .inl ⟨hopen, hkeep.trans (hfin.trans hopen), hn'⟩
  · exact .inr (.inl ⟨hopen, hclosed, fin, (Path.frame hp).1.trans hpend, hle, hn'⟩)

end Pass

namespace TcpHalf

/-- A path from a pass in which nothing was emitted yet. -/
theorem walk_advances {h : TcpHalf} {n n' : ℕ} {w w' : Pass} (hp : Pass.Path w w')
    (hstart : Pass.Emits { half := h } w []) (hw : w.half.Sound n) (hw' : w'.half.Sound n')
    (hfin : w.half.finConsumed = h.finConsumed) (hopen : h.finConsumed = false) :
    ∃ es, Pass.Emits { half := h } w' es ∧ (∀ e ∈ es, 0 < e.length) ∧
      Pass.Advances h n w' n' es := by
  obtain ⟨fs, hfs, hpos, hadv⟩ := Pass.Path.advances n [] hp hw hw' hfin hopen (by simp)
  exact ⟨fs, hstart.trans hfs, hpos, hadv⟩

/-- Payload that goes straight into the output, then a path. -/
theorem push_advances {h : TcpHalf} {n n' : ℕ} {w w' : Pass} {data : Bytes} {tsNs : ℕ}
    (hp : Pass.Path (w.push data tsNs) w') (hstart : Pass.Emits { half := h } w [])
    (hw : w.half.Sound n) (hempty : w.half.outOfOrder.entries = []) (hw' : w'.half.Sound n')
    (hfin : w.half.finConsumed = h.finConsumed) (hopen : h.finConsumed = false)
    (hne : data ≠ []) (hmax : n' < u64Max) :
    ∃ es, Pass.Emits { half := h } w' es ∧ (∀ e ∈ es, 0 < e.length) ∧
      Pass.Advances h n w' n' es := by
  have hs := Pass.push_sound hw hempty (hfin.trans hopen) data tsNs
  have hle : satAdd n data.length ≤ n' := by
    obtain ⟨m, hle, hm⟩ := hp.sound hs
    exact hm.next_unique hw'.next ▸ hle
  have hsum := satAdd_eq_of_lt (hle.trans_lt hmax)
  rw [hsum] at hs hle
  have hoff := hw.offset_le
  obtain ⟨fs, hfs, hpos, hadv⟩ := Pass.Path.advances (h := h) n [.chunk data] hp hs hw'
    hfin hopen (by simp [Span.length])
  refine ⟨.chunk data :: fs, ?_, ?_, hadv⟩
  · exact (hstart.trans (Pass.push_emits tsNs (by omega))).trans hfs
  · intro e he
    rcases List.mem_cons.mp he with rfl | he
    · exact List.length_pos_iff.mpr hne
    · exact hpos e he

/-- One call: the outcome is a list of spans laid out from the stream offset. -/
theorem Does.advances {h : TcpHalf} {n n' : ℕ} {c : Call} {w' : Pass} (hi : h.Idle n)
    (hd : Does h n c w') (hi' : w'.half.Idle n') (hmax : n' < u64Max) :
    ∃ es, Pass.Emits { half := h } w' es ∧ (∀ e ∈ es, 0 < e.length) ∧
      Pass.Advances h n w' n' es := by
  cases hd with
  | @walk c w w' hnoted _ hem hgaps _ hp =>
      have hstart : Pass.Emits { half := h } w [] := by
        refine .of_eq hem hgaps ?_
        rw [hnoted]
      have hw := hnoted.sound hi.sound
      have hfin : w.half.finConsumed = h.finConsumed := by rw [hnoted]
      by_cases hopen : h.finConsumed = false
      · exact walk_advances hp hstart hw hi'.sound hfin hopen
      · have hclosed : h.finConsumed = true := by simpa using hopen
        obtain ⟨ts, rfl⟩ := hp.of_closed (hfin.trans hclosed)
        refine ⟨[], ⟨hstart.chunks, hstart.gaps, hstart.offset⟩, by simp, .inr (.inr ?_)⟩
        refine ⟨hclosed, hfin.trans hclosed, rfl, (hw.next_unique hi'.sound.next).symm, ?_⟩
        change w.half.pendingFin = _
        rw [hnoted]
  | @store seq syn fin tsNs data lim w w' hopen hstores hp =>
      have hmark := h.arrive_remarked seq syn fin data n
      have hout := h.arrive_out seq syn fin data n
      have hs := arrive_sound hi.sound hopen seq syn fin data
      generalize h.arrive seq syn fin data n = a at hstores hmark hout hs
      have hstart : Pass.Emits { half := h } a.pass [] := by
        refine .of_eq ?_ ?_ ?_
        · rw [hout]
        · rw [hout]
        · rw [hmark.half]
      have hfin : a.pass.half.finConsumed = h.finConsumed := by rw [hmark.half]
      cases hstores with
      | nothing => exact walk_advances hp hstart hs hi'.sound hfin hopen
      | buffer hne hcase hlo hins =>
          have hins' : Pass.Emits a.pass w [] := by
            refine .of_eq ?_ ?_ ?_
            · rw [hins.out]
            · rw [hins.out]
            · rw [hins.half]
          have hsat := satAdd_le_add (extendSeq (payloadSeq seq syn) n) a.data.length
          have hw := hins.sound hs (hfin.trans hopen) (by omega)
          have hfin' : w.half.finConsumed = h.finConsumed := by rw [hins.half, hfin]
          exact walk_advances hp (hstart.trans hins') hw hi'.sound hfin' hopen
      | direct hle hlt hempty hw₀ =>
          have hdrop : a.data.drop (n - extendSeq (payloadSeq seq syn) n) ≠ [] := by
            rw [ne_eq, List.drop_eq_nil_iff]
            omega
          rcases hw₀ with rfl | rfl
          · exact push_advances hp hstart hs hempty hi'.sound hfin hopen hdrop hmax
          · exact push_advances (w := a.pass.markRetransmit) hp hstart.marked hs hempty hi'.sound
              hfin hopen hdrop hmax
      | replay hne hle hempty =>
          exact push_advances (w := a.pass.markRetransmit) hp hstart.marked hs hempty hi'.sound
            hfin hopen hne hmax

/-- With origin `o`, the next expected number is the stream offset further on, and
one more when FIN was consumed there. -/
def Placed (h : TcpHalf) (o n : ℕ) : Prop :=
  n = o + h.streamOffset +
    if h.finConsumed ∧ h.pendingFin = some (o + h.streamOffset) then 1 else 0

theorem Placed.step {h : TcpHalf} {o n n' : ℕ} {w' : Pass} {es : List (Span UInt8)}
    (hp : h.Placed o n) (hoff : w'.half.streamOffset = h.streamOffset + Span.width es)
    (hadv : Pass.Advances h n w' n' es) (hmax : n' < u64Max) : w'.half.Placed o n' := by
  unfold Placed at hp ⊢
  rw [hoff, ← Nat.add_assoc]
  rcases hadv with ⟨hopen, hopen', hn'⟩ | ⟨hopen, hclosed, fin, hpend, hle, hn'⟩ |
    ⟨hclosed, hclosed', rfl, hn', hpend⟩
  · simp only [hopen, Bool.false_eq_true, false_and, if_false] at hp
    simp only [hopen', Bool.false_eq_true, false_and, if_false]
    omega
  · simp only [hopen, Bool.false_eq_true, false_and, if_false] at hp
    have hn : n + Span.width es = o + h.streamOffset + Span.width es := by omega
    rw [hn] at hn'
    simp only [hclosed, hpend, true_and, Option.some.injEq]
    split_ifs at hn' ⊢
    · rw [hn'] at hmax
      rw [hn', satAdd_eq_of_lt hmax]
    · omega
  · simpa [hclosed, hclosed', hpend, hn'] using hp

theorem Noted.placed {h h' : TcpHalf} {o n : ℕ} (hn : Noted h h') (hp : h.Placed o n) :
    h'.Placed o n := by
  rw [hn]
  exact hp

end TcpHalf

/-- The chunks of a list of outcomes, in order of emission. -/
def emittedChunks (os : List ReassemblyOutcome) : List (ℕ × Bytes) :=
  os.flatMap fun out ↦ out.emitted.map (·.placed)

/-- The gaps of a list of outcomes, in order of declaration. -/
def declaredGaps (os : List ReassemblyOutcome) : List (ℕ × ℕ) :=
  os.flatMap fun out ↦ out.gaps.map (·.placed)

namespace TcpHalf

/-- The run lemma: the outcomes of all calls are one list of spans. -/
theorem Idle.run_advances {h : TcpHalf} {o n n' : ℕ} (hi : h.Idle n) (hp : h.Placed o n)
    (cs : List Call) (hn' : (h.after cs).nextAbs = some n') (hmax : n' < u64Max) :
    ∃ es, emittedChunks (h.outcomes cs) = Span.chunksAt h.streamOffset es ∧
      declaredGaps (h.outcomes cs) = Span.gapsAt h.streamOffset es ∧
      (∀ e ∈ es, 0 < e.length) ∧
      (h.after cs).streamOffset = h.streamOffset + Span.width es ∧
      (h.after cs).Placed o n' := by
  induction cs generalizing h n with
  | nil =>
      obtain rfl := hi.sound.next_unique hn'
      exact ⟨[], rfl, rfl, by simp, rfl, hp⟩
  | cons c cs ih =>
      obtain ⟨hdoes, m, hnm, hm⟩ := hi.step c
      obtain ⟨hi₀, hnoted⟩ := hi.primed c
      have hoff : (h.primed c).streamOffset = h.streamOffset := by rw [hnoted]
      have hlt : m < u64Max := by
        obtain ⟨k, hmk, hk⟩ := hm.after cs
        have := hk.sound.next_unique hn'
        omega
      obtain ⟨es, hes, hpos, hadv⟩ := hdoes.advances hi₀ hm hlt
      obtain ⟨fs, hchunks, hgaps, hpos', hoff', hplaced⟩ :=
        ih hm ((hnoted.placed hp).step hes.offset hadv hlt) hn'
      have hes_chunks := hes.chunks
      have hes_gaps := hes.gaps
      have hes_off := hes.offset
      simp only [List.map_nil, List.nil_append, hoff] at hes_chunks hes_gaps hes_off
      refine ⟨es ++ fs, ?_, ?_, ?_, ?_, hplaced⟩
      · rw [Span.chunksAt_append, ← hes_chunks, ← hes_off, ← hchunks]
        rfl
      · rw [Span.gapsAt_append, ← hes_gaps, ← hes_off, ← hgaps]
        rfl
      · intro e he
        rcases List.mem_append.mp he with he | he
        · exact hpos e he
        · exact hpos' e he
      · rw [Span.width_append, ← Nat.add_assoc, ← hes_off]
        exact hoff'

/-- A run from the default half is untouched so far, or starts at its origin. -/
theorem default_run (cs : List Call) :
    (origin? cs = none ∧ ({} : TcpHalf).after cs = {} ∧
        ∀ out ∈ ({} : TcpHalf).outcomes cs, out = {}) ∨
      ∃ as c bs o, cs = as ++ c :: bs ∧ origin? cs = some o ∧ c.origin? = some o ∧
        ({} : TcpHalf).after as = {} ∧ (∀ out ∈ ({} : TcpHalf).outcomes as, out = {}) := by
  induction cs with
  | nil => exact .inl ⟨rfl, rfl, by simp [outcomes]⟩
  | cons c cs ih =>
      cases hc : c.origin? with
      | some o => exact .inr ⟨[], c, cs, o, rfl, by simp [origin?, hc], hc, rfl, by simp [outcomes]⟩
      | none =>
          have hstep := step_default hc
          rcases ih with ⟨ho, hafter, hout⟩ | ⟨as, c', bs, o, rfl, ho, hc', hafter, hout⟩
          · refine .inl ⟨by simpa [origin?, hc] using ho, by simpa [after, hstep] using hafter, ?_⟩
            simpa [outcomes, hstep] using hout
          · refine .inr ⟨c :: as, c', bs, o, rfl, by simpa [origin?, hc] using ho, hc', ?_, ?_⟩
            · simpa [after, hstep] using hafter
            · simpa [outcomes, hstep] using hout

theorem after_primed (h : TcpHalf) (c : Call) (cs : List Call) :
    (h.primed c).after (c :: cs) = h.after (c :: cs) := by
  simp [after, step_primed]

theorem settled_after (cs : List Call) : (({} : TcpHalf).after cs).Settled := by
  rcases default_run cs with ⟨-, hafter, -⟩ | ⟨as, c, bs, o, rfl, -, hc, hafter, -⟩
  · exact .inl hafter
  · rw [after_append, hafter, ← after_primed]
    obtain ⟨n, -, hn⟩ := (primed_idle_of_default hc).after (c :: bs)
    exact .inr ⟨n, hn⟩

theorem outcomes_primed (h : TcpHalf) (c : Call) (cs : List Call) :
    (h.primed c).outcomes (c :: cs) = h.outcomes (c :: cs) := by
  simp [outcomes, step_primed]

theorem emittedChunks_trivial {os : List ReassemblyOutcome} (h : ∀ out ∈ os, out = {}) :
    emittedChunks os = [] ∧ declaredGaps os = [] := by
  constructor
  · rw [emittedChunks, List.flatMap_eq_nil_iff]
    intro out hout
    simp [h out hout]
  · rw [declaredGaps, List.flatMap_eq_nil_iff]
    intro out hout
    simp [h out hout]

/-- The whole run as one list of spans from offset zero. -/
theorem run_spans (cs : List Call)
    (hmax : ∀ n, (({} : TcpHalf).after cs).nextAbs = some n → n < u64Max) :
    ∃ es, emittedChunks (({} : TcpHalf).outcomes cs) = Span.chunksAt 0 es ∧
      declaredGaps (({} : TcpHalf).outcomes cs) = Span.gapsAt 0 es ∧
      (∀ e ∈ es, 0 < e.length) ∧ (({} : TcpHalf).after cs).streamOffset = Span.width es ∧
      ∀ n, (({} : TcpHalf).after cs).nextAbs = some n →
        ∃ o, origin? cs = some o ∧ (({} : TcpHalf).after cs).Placed o n := by
  rcases default_run cs with ⟨-, hafter, hout⟩ | ⟨as, c, bs, o, rfl, ho, hc, hafter, hout⟩
  · obtain ⟨hchunks, hgaps⟩ := emittedChunks_trivial hout
    rw [hafter]
    exact ⟨[], hchunks, hgaps, by simp, rfl, by simp⟩
  · obtain ⟨hchunks, hgaps⟩ := emittedChunks_trivial hout
    have hi := primed_idle_of_default hc
    have hoff : (({} : TcpHalf).primed c).streamOffset = 0 := by rw [primed_eq]
    have hopen : (({} : TcpHalf).primed c).finConsumed = false := by rw [primed_eq]
    rw [after_append, hafter, ← after_primed] at hmax ⊢
    rw [outcomes_append, hafter, ← outcomes_primed]
    obtain ⟨n', -, hn'⟩ := hi.after (c :: bs)
    have hplaced : (({} : TcpHalf).primed c).Placed o o := by simp [Placed, hoff, hopen]
    obtain ⟨es, hes, hgs, hpos, hwidth, hlast⟩ :=
      hi.run_advances hplaced (c :: bs) hn'.sound.next (hmax n' hn'.sound.next)
    rw [hoff] at hes hgs hwidth
    refine ⟨es, ?_, ?_, hpos, by simpa using hwidth, fun n hn ↦ ⟨o, ho, ?_⟩⟩
    · rw [emittedChunks, List.flatMap_append, ← emittedChunks, ← emittedChunks, hchunks, hes,
        List.nil_append]
    · rw [declaredGaps, List.flatMap_append, ← declaredGaps, ← declaredGaps, hgaps, hgs,
        List.nil_append]
    · exact hn'.sound.next_unique hn ▸ hlast

/-- Below saturation, the chunks and gaps of a run are non-empty and cover
`[0, streamOffset)` once, chunks come in increasing order of offset, and `nextAbs`
is the origin plus the stream offset, plus one exactly when FIN was consumed at its
own position. -/
theorem stream_tiling (cs : List Call)
    (hmax : ∀ n, (({} : TcpHalf).after cs).nextAbs = some n → n < u64Max) :
    (∃ tiles, tiles.Perm (Span.extents (emittedChunks (({} : TcpHalf).outcomes cs))
        (declaredGaps (({} : TcpHalf).outcomes cs))) ∧
      Span.Tiles 0 tiles (({} : TcpHalf).after cs).streamOffset) ∧
      (emittedChunks (({} : TcpHalf).outcomes cs)).Pairwise (fun c d ↦ c.1 < d.1) ∧
      (declaredGaps (({} : TcpHalf).outcomes cs)).Pairwise (fun c d ↦ c.1 < d.1) ∧
      ∀ n, (({} : TcpHalf).after cs).nextAbs = some n →
        ∃ o, origin? cs = some o ∧ n = o + (({} : TcpHalf).after cs).streamOffset +
          if (({} : TcpHalf).after cs).finConsumed ∧ (({} : TcpHalf).after cs).pendingFin =
            some (o + (({} : TcpHalf).after cs).streamOffset) then 1 else 0 := by
  obtain ⟨es, hchunks, hgaps, hpos, hwidth, hplaced⟩ := run_spans cs hmax
  rw [hchunks, hgaps]
  refine ⟨?_, Span.chunksAt_increasing 0 hpos, Span.gapsAt_increasing 0 hpos, hplaced⟩
  rw [hwidth]
  simpa using Span.exists_tiles 0 hpos

/-- Data, a hole, data with a tentative FIN, the missing data and the acknowledgement. -/
def acknowledgedFinRun : List Call :=
  [.accept 100 false false 0 [1, 2] ⟨9, 9, 9⟩, .accept 104 false true 0 [5] ⟨9, 9, 9⟩,
    .accept 102 false false 0 [3, 4] ⟨9, 9, 9⟩, .acknowledge 106 1 9]

theorem stream_tiling_acknowledgedFinRun :
    Span.extents (emittedChunks (({} : TcpHalf).outcomes acknowledgedFinRun))
        (declaredGaps (({} : TcpHalf).outcomes acknowledgedFinRun)) = [(0, 2), (2, 2), (4, 1)] ∧
      ∃ tiles, tiles.Perm [(0, 2), (2, 2), (4, 1)] ∧ Span.Tiles 0 tiles 5 := by
  have hext : Span.extents (emittedChunks (({} : TcpHalf).outcomes acknowledgedFinRun))
      (declaredGaps (({} : TcpHalf).outcomes acknowledgedFinRun)) = [(0, 2), (2, 2), (4, 1)] := by
    decide
  have hoff : (({} : TcpHalf).after acknowledgedFinRun).streamOffset = 5 := by decide
  obtain ⟨tiles, hperm, htiles⟩ := (stream_tiling acknowledgedFinRun (by decide)).1
  rw [hext] at hperm
  rw [hoff] at htiles
  exact ⟨hext, tiles, hperm, htiles⟩

end TcpHalf

end Bazalt.Flow
