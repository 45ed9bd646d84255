import Bazalt.Flow.Recovery
import Bazalt.Lib.Spans

/-!
# What a path delivers

Along a path the half reads its own buffer off: chunks are the buffered bytes from
the next expected position on, gaps are positions at which nothing is buffered, and
the offsets in the outcome are those of the spans laid out from `streamOffset`.
-/

namespace Bazalt.Flow

open Lib OrdMap

def ReassembledChunk.placed (c : ReassembledChunk) : ℕ × Bytes := (c.offset, c.data)

def StreamGap.placed (g : StreamGap) : ℕ × ℕ := (g.offset, g.len)

theorem TcpHalf.Sound.next_unique {h : TcpHalf} {n m : ℕ} (hn : h.Sound n)
    (hm : h.nextAbs = some m) : n = m :=
  Option.some.inj (hn.next.symm.trans hm)

namespace Pass

/-- The outcome grows by the spans `es`, laid out from the stream offset. -/
structure Emits (w w' : Pass) (es : List (Span UInt8)) : Prop where
  chunks : w'.out.emitted.map (·.placed) =
    w.out.emitted.map (·.placed) ++ Span.chunksAt w.half.streamOffset es
  gaps : w'.out.gaps.map (·.placed) =
    w.out.gaps.map (·.placed) ++ Span.gapsAt w.half.streamOffset es
  offset : w'.half.streamOffset = w.half.streamOffset + Span.width es

theorem Emits.of_eq {w w' : Pass} (hchunks : w'.out.emitted = w.out.emitted)
    (hgaps : w'.out.gaps = w.out.gaps) (hoff : w'.half.streamOffset = w.half.streamOffset) :
    Emits w w' [] :=
  ⟨by simp [hchunks, Span.chunksAt], by simp [hgaps, Span.gapsAt], by simp [hoff]⟩

theorem Emits.trans {w w' w'' : Pass} {es fs : List (Span UInt8)} (h : Emits w w' es)
    (h' : Emits w' w'' fs) : Emits w w'' (es ++ fs) := by
  refine ⟨?_, ?_, ?_⟩
  · rw [h'.chunks, h.chunks, h.offset, Span.chunksAt_append, List.append_assoc]
  · rw [h'.gaps, h.gaps, h.offset, Span.gapsAt_append, List.append_assoc]
  · rw [h'.offset, h.offset, Span.width_append, Nat.add_assoc]

theorem push_emits {w : Pass} {data : Bytes} (tsNs : ℕ)
    (hmax : w.half.streamOffset + data.length ≤ u64Max) :
    Emits w (w.push data tsNs) [.chunk data] := by
  refine ⟨?_, ?_, ?_⟩
  · simp [push, Span.chunksAt, ReassembledChunk.placed]
  · simp [push, Span.gapsAt]
  · simp [push, Span.width, Span.length, satAdd_of_le hmax]

theorem skipTo_emits {w : Pass} {n target : ℕ}
    (hmax : w.half.streamOffset + (target - n) ≤ u64Max) :
    Emits w (w.skipTo n target) [.gap (target - n)] := by
  refine ⟨?_, ?_, ?_⟩
  · simp [skipTo, Span.chunksAt]
  · simp [skipTo, Span.gapsAt, StreamGap.placed]
  · simp [skipTo, Span.width, Span.length, satAdd_of_le hmax]

/-- Where a walk that stands at `m` leaves the half: it expects `m` and still holds
what lies ahead, or it has been closed. -/
def Lands (w w' : Pass) (m n' : ℕ) : Prop :=
  w'.half.finConsumed = w.half.finConsumed ∧ n' = m ∧
      (∀ p b, m ≤ p → (w'.half.Held p b ↔ w.half.Held p b)) ∨
    w.half.finConsumed = false ∧ w'.half.finConsumed = true ∧
      ∃ fin, w.half.pendingFin = some fin ∧ fin ≤ m ∧
        n' = if fin = m then satAdd m 1 else m

/-- From `n` on, `w'` has read the buffer of `w` off as `es`. -/
structure Reads (w w' : Pass) (n n' : ℕ) (es : List (Span UInt8)) : Prop where
  delivers : Span.Delivers w.half.Held n es (n + Span.width es)
  emits : Emits w w' es
  lands : Lands w w' (n + Span.width es) n'

theorem Micro.frame {w w' : Pass} (hs : Micro w w') :
    w'.half.pendingFin = w.half.pendingFin ∧ w'.half.peerAckAbs = w.half.peerAckAbs ∧
      w'.half.initialSynSeq = w.half.initialSynSeq := by
  cases hs with
  | chunk => exact ⟨rfl, rfl, rfl⟩
  | drop => exact ⟨rfl, rfl, rfl⟩
  | gap => exact ⟨rfl, rfl, rfl⟩
  | close => exact ⟨rfl, rfl, rfl⟩
  | stamp ts => exact ⟨rfl, rfl, rfl⟩

theorem Path.frame {w w' : Pass} (hp : Path w w') :
    w'.half.pendingFin = w.half.pendingFin ∧ w'.half.peerAckAbs = w.half.peerAckAbs ∧
      w'.half.initialSynSeq = w.half.initialSynSeq := by
  induction hp with
  | refl => exact ⟨rfl, rfl, rfl⟩
  | tail _ hs ih =>
      obtain ⟨h₁, h₂, h₃⟩ := hs.frame
      exact ⟨h₁.trans ih.1, h₂.trans ih.2.1, h₃.trans ih.2.2⟩

/-- Past the first buffered segment the buffer without it holds the same bytes. -/
theorem popFirst_held {w : Pass} {e : ℕ × BufferedSegment}
    (hfirst : w.half.outOfOrder.first? = some e) {p : ℕ} (hp : e.1 + e.2.data.length ≤ p)
    (b : UInt8) : (w.popFirst e.2).half.Held p b ↔ w.half.Held p b := by
  constructor
  · rintro ⟨a, ha, hle, hget⟩
    exact ⟨a, List.mem_of_mem_tail ha, hle, hget⟩
  · rintro ⟨a, ha, hle, hget⟩
    rcases mem_first_or_tail hfirst ha with rfl | ha
    · have := (List.getElem?_eq_some_iff.mp hget).1
      omega
    · exact ⟨a, ha, hle, hget⟩

theorem Micro.reads {w w' : Pass} (hs : Micro w w') {n n' : ℕ} (h : w.half.Sound n)
    (h' : w'.half.Sound n') : ∃ es, Reads w w' n n' es := by
  have hoff := h.offset_le
  cases hs with
  | @chunk m segment hfin hnext hfirst =>
      obtain rfl := h.next_unique hnext
      have hmem := mem_of_first? hfirst
      have hbound : n + segment.data.length ≤ u64Max := h.buffered.bound _ hmem
      have hn' : n' = n + segment.data.length := h'.next_unique (h.chunk_next hfirst)
      refine ⟨[.chunk segment.data], ?_, ?_, .inl ⟨rfl, by simpa [Span.length] using hn', ?_⟩⟩
      · refine .chunk _ _ _ _ (h.buffered.tidy.nonempty _ hmem) ?_ (by simpa using .nil _)
        intro i b hb
        exact ⟨(n, segment), hmem, by omega, by simpa using hb⟩
      · have hmax : (w.popFirst segment).half.streamOffset + segment.data.length ≤ u64Max :=
          (Nat.add_le_add_right hoff _).trans hbound
        have hpush := push_emits segment.tsNs hmax
        exact ⟨hpush.chunks, hpush.gaps, hpush.offset⟩
      · intro p b hp
        exact popFirst_held hfirst (by simpa [Span.length] using hp) b
  | @drop m k segment hfin hnext hfirst hle =>
      obtain rfl := h.next_unique hnext
      refine ⟨[], by simpa using .nil n, .of_eq rfl rfl rfl, .inl ⟨rfl, ?_, ?_⟩⟩
      · exact (h.next_unique h'.next).symm
      · intro p b hp
        exact popFirst_held hfirst (by simp at hp ⊢; omega) b
  | @gap m target hfin hnext hlt hclip hahead hland =>
      obtain rfl := h.next_unique hnext
      obtain rfl : n' = target := h'.next_unique rfl
      have hmax := h'.le
      have hwidth : n + (n' - n) = n' := by omega
      refine ⟨[.gap (n' - n)], ?_, skipTo_emits (by omega), .inl ⟨rfl, ?_, fun p b hp ↦ Iff.rfl⟩⟩
      · refine .gap _ _ _ _ (by omega) ?_ (by simpa [Span.length] using .nil _)
        rintro i hi b ⟨e, he, hle, -⟩
        have := hahead e he
        omega
      · simp only [Span.width_cons, Span.length, Span.width_nil]
        omega
  | @close fin m hfin hpend hnext hle hack =>
      obtain rfl := h.next_unique hnext
      refine ⟨[], by simpa using .nil n, .of_eq rfl rfl rfl,
        .inr ⟨hfin, rfl, fin, hpend, by simpa using hle, ?_⟩⟩
      exact h'.next_unique rfl
  | stamp ts =>
      refine ⟨[], by simpa using .nil n, .of_eq rfl rfl rfl, .inl ⟨rfl, ?_, fun p b hp ↦ Iff.rfl⟩⟩
      exact (h.next_unique h'.next).symm

/-- A closed half only has its gap clock moved. -/
theorem Micro.of_closed {w w' : Pass} (hs : Micro w w') (hfin : w.half.finConsumed = true) :
    ∃ ts, w' = w.stamp ts := by
  cases hs with
  | chunk h => simp [hfin] at h
  | drop h => simp [hfin] at h
  | gap h => simp [hfin] at h
  | close h => simp [hfin] at h
  | stamp ts => exact ⟨ts, rfl⟩

theorem Path.reads {w w' : Pass} (hp : Path w w') {n : ℕ} (h : w.half.Sound n) :
    ∀ {n'}, w'.half.Sound n' → ∃ es, Reads w w' n n' es := by
  induction hp with
  | refl =>
      intro n' h'
      refine ⟨[], by simpa using .nil n, .of_eq rfl rfl rfl, .inl ⟨rfl, ?_, fun p b hp ↦ Iff.rfl⟩⟩
      exact (h.next_unique h'.next).symm
  | @tail w₁ w₂ hp hs ih =>
      intro n' h'
      obtain ⟨n₁, -, h₁⟩ := Path.sound hp h
      obtain ⟨es, hes⟩ := ih h₁
      rcases hes.lands with ⟨hfin, rfl, hheld⟩ | ⟨hfin, hfin₁, fin, hpend, hle, hn₁⟩
      · obtain ⟨fs, hfs⟩ := hs.reads h₁ h'
        refine ⟨es ++ fs, ?_, hes.emits.trans hfs.emits, ?_⟩
        · rw [Span.width_append, ← Nat.add_assoc]
          exact hes.delivers.trans (hfs.delivers.congr fun p b hp ↦ hheld p b hp)
        · rw [Span.width_append, ← Nat.add_assoc]
          rcases hfs.lands with ⟨hfin₂, hn', hheld₂⟩ | ⟨hfin₁, hfin₂, fin, hpend, hle, hn'⟩
          · refine .inl ⟨hfin₂.trans hfin, hn', fun p b hp ↦ ?_⟩
            exact (hheld₂ p b hp).trans (hheld p b (by omega))
          · refine .inr ⟨hfin.symm.trans hfin₁, hfin₂, fin, ?_, hle, hn'⟩
            exact (Path.frame hp).1.symm.trans hpend
      · obtain ⟨ts, rfl⟩ := hs.of_closed hfin₁
        have hn' : n' = n₁ := (h₁.next_unique h'.next).symm
        exact ⟨es, hes.delivers, ⟨hes.emits.chunks, hes.emits.gaps, hes.emits.offset⟩,
          .inr ⟨hfin, hfin₁, fin, hpend, hle, hn'.trans hn₁⟩⟩

end Pass

end Bazalt.Flow
