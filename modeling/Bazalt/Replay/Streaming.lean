import Mathlib.Data.List.DropRight
import Bazalt.Replay.Agreement

/-!
# One literal over a stream

A stream comes in records, and a literal can lie across any number of them.  A scan looks at
the record itself and at a bridge: one byte less than the literal before the record, and as many
of its first bytes.  Whatever the cuts are, every hit spells the literal, every occurrence has a
hit that overlaps it, and no hit is reported twice.
-/

namespace Bazalt.Matching

open Lib

/-! ## Scans within their bounds -/

namespace Scan

variable {b : Bounds} {s : Scan}

theorem limited_push (p : PatternRevision) (hit : MatchRecord) (h : s.limited = true) :
    (s.push b p hit).limited = true := by
  unfold push
  split_ifs
  · rfl
  · dsimp only
    split_ifs
    · rfl
    · exact h

theorem limited_each {M : Type} {keep : M → Option (PatternRevision × MatchRecord)} {ms : List M}
    (h : s.limited = true) : (each b keep ms s).1.limited = true := by
  induction ms generalizing s with
  | nil => exact h
  | cons m ms ih =>
      rw [each]
      split_ifs
      · rfl
      · cases keep m with
        | none => exact ih h
        | some e => exact ih (limited_push e.1 e.2 h)

theorem out_push {p : PatternRevision} {hit : MatchRecord} (h : (s.push b p hit).limited = false) :
    (s.push b p hit).out = s.out ++ [hit] := by
  unfold push at h ⊢
  split_ifs at h ⊢
  · cases h
  · dsimp only at h ⊢
    split_ifs at h ⊢
    · cases h
    · rfl

/-- A loop that reaches no limit pushes all that it keeps. -/
theorem out_each {M : Type} {keep : M → Option (PatternRevision × MatchRecord)} {ms : List M}
    (h : (each b keep ms s).1.limited = false) : (each b keep ms s).2 = true ∧
      (each b keep ms s).1.out = s.out ++ (ms.filterMap keep).map Prod.snd := by
  induction ms generalizing s with
  | nil => simp [each]
  | cons m ms ih =>
      rw [each] at h ⊢
      split_ifs at h ⊢ with hfull
      · cases h
      · cases hk : keep m with
        | none =>
            simp only [hk] at h ⊢
            rw [List.filterMap_cons_none hk]
            exact ih h
        | some e =>
            simp only [hk] at h ⊢
            have hpush : (s.push b e.1 e.2).limited = false := by
              by_contra hlimited
              rw [limited_each (by simpa using hlimited)] at h
              cases h
            obtain ⟨hgo, hout⟩ := ih h
            refine ⟨hgo, ?_⟩
            rw [hout, out_push hpush, List.filterMap_cons_some hk]
            simp

end Scan

namespace CompiledGroup

variable {E : Engines} {b : Bounds} {g : CompiledGroup} {record : ContentRecord} {tail : Bytes}
  {historical : Bool} {s : Scan}

theorem out_scanBridge (h : (g.scanBridge E b record tail historical s).1.limited = false) :
    (g.scanBridge E b record tail historical s).2 = true ∧
      (g.scanBridge E b record tail historical s).1.out =
        s.out ++ bridgeHits E g record tail historical := by
  unfold scanBridge bridgeHits at *
  dsimp only at h ⊢
  split_ifs at h ⊢
  · exact Scan.out_each h
  · exact ⟨rfl, by simp⟩

/-- A group without regular expressions whose scan reaches no limit. -/
theorem out_scanInto (hregex : g.regexes = [])
    (h : (g.scanInto E b record tail historical s).limited = false) :
    (g.scanInto E b record tail historical s).out =
      s.out ++ literalHits E g record tail historical := by
  have hinto : g.scanInto E b record tail historical s =
      (g.scanLiterals E b record tail historical s).1 := by
    unfold scanInto
    rcases g.scanLiterals E b record tail historical s with ⟨s', go⟩
    cases go with
    | false => rfl
    | true => simp [hregex]
  rw [hinto] at h ⊢
  unfold scanLiterals literalHits at *
  split_ifs at h ⊢
  · simp
  · have hbridge : (g.scanBridge E b record tail historical s).1.limited = false := by
      by_contra hlimited
      rw [Bool.not_eq_false] at hlimited
      rcases hscan : g.scanBridge E b record tail historical s with ⟨s', go⟩
      rw [hscan] at h hlimited
      cases go with
      | false => exact absurd (hlimited.symm.trans h) (by simp)
      | true => exact absurd ((Scan.limited_each hlimited).symm.trans h) (by simp)
    obtain ⟨hgo, hout⟩ := out_scanBridge hbridge
    rcases hscan : g.scanBridge E b record tail historical s with ⟨s', go⟩
    rw [hscan] at h hgo hout
    simp only at hgo hout
    subst hgo
    simp only at h ⊢
    rw [(Scan.out_each h).2, hout, List.append_assoc]
    rfl

end CompiledGroup

/-! ## One record -/

section

variable {w front data : Bytes}

theorem rtake_append_of_le {n : ℕ} (h : n ≤ data.length) :
    (front ++ data).rtake n = data.rtake n := by
  rw [List.rtake, List.rtake, List.length_append, List.drop_append,
    List.drop_eq_nil_of_le (by omega), List.nil_append]
  congr 1
  omega

/-- A tail holds the last bytes of the stream. -/
theorem buildTail_rtake (front data : Bytes) (keep : ℕ) :
    buildTail (front.rtake keep) data keep = (front ++ data).rtake keep := by
  unfold buildTail
  split_ifs with hzero hlong
  · rw [hzero, List.rtake_zero]
  · rw [rtake_append_of_le hlong, List.rtake]
  · simp only [List.rtake, List.length_drop, List.drop_drop, List.length_append]
    have hwhole : front.length + data.length - keep - front.length = 0 := by omega
    rw [List.drop_append, hwhole, List.drop_zero]
    congr 2
    omega

/-- The text that the bridge is searched in. -/
def window (w front data : Bytes) : Bytes :=
  front.rtake (w.length - 1) ++ data.take (min (w.length - 1) data.length)

/-- An occurrence that starts before the record and ends in it lies in the window. -/
theorem occursAt_window {t : ℕ} (ht : t + w.length ≤ (window w front data).length) :
    OccursAt w (window w front data) t ↔
      OccursAt w (front ++ data) ((front.length - (w.length - 1)) + t) := by
  have hsplit : front ++ data = front.take (front.length - (w.length - 1)) ++
      (window w front data ++ data.drop (min (w.length - 1) data.length)) := by
    rw [window, List.rtake, List.append_assoc, List.take_append_drop, ← List.append_assoc,
      List.take_append_drop]
  have hfront : (front.take (front.length - (w.length - 1))).length =
      front.length - (w.length - 1) := by
    rw [List.length_take]
    omega
  rw [hsplit, show front.length - (w.length - 1) + t =
    (front.take (front.length - (w.length - 1))).length + t by rw [hfront],
    occursAt_append_left, occursAt_append_right ht]

theorem length_window : (window w front data).length =
    min (w.length - 1) front.length + min (w.length - 1) data.length := by
  simp only [window, List.rtake, List.length_append, List.length_drop, List.length_take]
  omega

/-- What the automaton of one word hands out. -/
structure Searches (w text : Bytes) (hits : List Hit) : Prop where
  sound : ∀ m ∈ hits, m.word = 0 ∧ m.finish = m.start + w.length ∧ OccursAt w text m.start
  complete : ∀ s, OccursAt w text s → ∃ m ∈ hits, m.start < s + w.length ∧ s < m.finish
  apart : hits.Pairwise fun m m' ↦ m.finish ≤ m'.start

theorem Engines.Standard.searches {E : Engines} (hE : E.Standard) (hw : w ≠ []) (text : Bytes) :
    Searches w text (E.acFindIter [w] text) := by
  have hne : ∀ v ∈ [w], v ≠ [] := by simpa using hw
  obtain ⟨next, hnext, hiter⟩ := hE [w] hne text
  rw [hiter]
  obtain ⟨hhits, hapart⟩ := hitsFrom_spec hnext (text.length + 1) 0
  refine ⟨fun m hm ↦ ?_, fun s hocc ↦ ?_, hapart⟩
  · obtain ⟨v, hv, -, hfin, hocc⟩ := hhits m hm
    obtain ⟨hword, rfl⟩ : m.word = 0 ∧ w = v := by
      cases hword : m.word with
      | zero => simpa [hword] using hv
      | succ n => simp [hword] at hv
    exact ⟨hword, hfin, hocc⟩
  · exact exists_overlap_hitsFrom hne hnext (i := 0) rfl hocc _ 0 (Nat.zero_le s) (by omega)

end

namespace CompiledGroup

/-- The only pattern of the group is the literal `w`. -/
structure Single (g : CompiledGroup) (p : PatternRevision) (w : Bytes) : Prop where
  literals : g.literals = [w]
  literalMeta : g.literalMeta = [p]
  regexes : g.regexes = []
  maxLiteralLen : g.maxLiteralLen = w.length

theorem single_of_compile {E : Engines} {g : CompiledGroup} {p : PatternRevision} {w : Bytes}
    (hg : compile E [p] = some g) (hw : literal? E p = some w) : g.Single p w := by
  have hadd : add E {} p = some g := by
    simpa using (Option.filter_eq_some_iff.mp hg).1
  unfold add at hadd
  unfold literal? at hw
  cases hk : p.kind with
  | text =>
      simp only [hk, Option.some.injEq] at hadd hw
      subst hadd hw
      exact ⟨rfl, rfl, rfl, Nat.zero_max _⟩
  | binary =>
      simp only [hk] at hadd hw
      rw [hw] at hadd
      obtain rfl := Option.some.inj hadd
      exact ⟨rfl, rfl, rfl, Nat.zero_max _⟩
  | regex => simp [hk] at hw

section

variable {E : Engines} {g : CompiledGroup} {p : PatternRevision} {w front : Bytes}
  {record : ContentRecord} {base : ℕ}

theorem dataHits_eq (hE : E.Standard) (hg : g.Single p w) (hw : w ≠ []) (historical : Bool) :
    dataHits E g record historical = (E.acFindIter [w] record.data).map fun m ↦
      matchRecord p record (record.streamOffset + m.start) (record.streamOffset + m.finish)
        historical := by
  have hsearch := hE.searches hw record.data
  have hkeep : (E.acFindIter [w] record.data).filterMap (g.keepData record historical) =
      (E.acFindIter [w] record.data).map fun m ↦ (p, matchRecord p record
        (record.streamOffset + m.start) (record.streamOffset + m.finish) historical) := by
    refine List.filterMap_eq_map_iff_forall_eq_some.mpr fun m hm ↦ ?_
    simp [keepData, hg.literalMeta, (hsearch.sound m hm).1]
  rw [dataHits, hg.literals, hkeep, List.map_map]
  rfl

/-- Every hit in the window crosses the start of the record. -/
theorem bridgeHits_eq (hE : E.Standard) (hg : g.Single p w) (hw : w ≠ [])
    (hoff : record.streamOffset = base + front.length) (historical : Bool) :
    bridgeHits E g record (front.rtake (w.length - 1)) historical =
      (E.acFindIter [w] (window w front record.data)).map fun m ↦
        matchRecord p record (base + (front.length - (w.length - 1)) + m.start)
          (base + (front.length - (w.length - 1)) + m.finish) historical := by
  have hpos := List.length_pos_iff.mpr hw
  have hsearch := hE.searches hw (window w front record.data)
  have hlen : (front.rtake (w.length - 1)).length = min (w.length - 1) front.length := by
    rw [List.rtake, List.length_drop]
    omega
  have hinside : ∀ m ∈ E.acFindIter [w] (window w front record.data), m.word = 0 ∧
      m.finish = m.start + w.length ∧ m.finish ≤
        min (w.length - 1) front.length + min (w.length - 1) record.data.length := by
    intro m hm
    obtain ⟨hword, hfin, hocc⟩ := hsearch.sound m hm
    have hend := hocc.end_le hw
    rw [length_window] at hend
    exact ⟨hword, hfin, by omega⟩
  unfold bridgeHits
  split_ifs with hcond
  · have hhead : (front.rtake (w.length - 1)).drop
        (min (w.length - 1) front.length - (w.length - 1)) = front.rtake (w.length - 1) := by
      rw [Nat.sub_eq_zero_of_le (by omega), List.drop_zero]
    have hbase : record.streamOffset - min (w.length - 1) front.length =
        base + (front.length - (w.length - 1)) := by omega
    simp only [hg.literals, hg.maxLiteralLen, hlen, hhead, hbase]
    have hkeep : (E.acFindIter [w] (window w front record.data)).filterMap
        (g.keepBridge record historical (base + (front.length - (w.length - 1)))) =
          (E.acFindIter [w] (window w front record.data)).map fun m ↦ (p, matchRecord p record
            (base + (front.length - (w.length - 1)) + m.start)
            (base + (front.length - (w.length - 1)) + m.finish) historical) := by
      refine List.filterMap_eq_map_iff_forall_eq_some.mpr fun m hm ↦ ?_
      obtain ⟨hword, hfin, hend⟩ := hinside m hm
      simp only [keepBridge, hg.literalMeta, hword]
      exact if_pos ⟨by omega, by omega⟩
    rw [window] at hkeep
    rw [hkeep, List.map_map, ← window]
    rfl
  · -- without a tail, or for one byte, nothing lies across the start
    have hnone : E.acFindIter [w] (window w front record.data) = [] := by
      refine List.eq_nil_iff_forall_not_mem.mpr fun m hm ↦ hcond ?_
      obtain ⟨-, hfin, hend⟩ := hinside m hm
      have htail : front.rtake (w.length - 1) ≠ [] := by
        rw [← List.length_pos_iff, hlen]
        omega
      simp only [Bool.and_eq_true, Bool.not_eq_true', List.isEmpty_eq_false_iff,
        decide_eq_true_eq, hg.maxLiteralLen]
      exact ⟨htail, by omega⟩
    rw [hnone, List.map_nil]

end

end CompiledGroup

/-- Hits for the occurrences of the literal that end in `data`, where `front` comes before it. -/
structure Covers (w front data : Bytes) (base : ℕ) (hits : List MatchRecord) : Prop where
  sound : ∀ hit ∈ hits, ∃ s, OccursAt w (front ++ data) s ∧ front.length < s + w.length ∧
    hit.offsetStart = base + s ∧ hit.offsetEnd = base + s + w.length
  complete : ∀ s, OccursAt w (front ++ data) s → front.length < s + w.length →
    ∃ hit ∈ hits, hit.offsetStart < base + s + w.length ∧ base + s < hit.offsetEnd
  apart : hits.Pairwise fun hit hit' ↦ hit.offsetStart < hit'.offsetStart

section

variable {E : Engines} {g : CompiledGroup} {p : PatternRevision} {w front data rest : Bytes}
  {record : ContentRecord} {base : ℕ} {hits hits' : List MatchRecord}

theorem covers_literalHits (hE : E.Standard) (hg : g.Single p w) (hw : w ≠ [])
    (hoff : record.streamOffset = base + front.length) (historical : Bool) :
    Covers w front record.data base
      (CompiledGroup.literalHits E g record (front.rtake (w.length - 1)) historical) := by
  have hpos := List.length_pos_iff.mpr hw
  have hbridge := hE.searches hw (window w front record.data)
  have hinner := hE.searches hw record.data
  have hwindow : ∀ m ∈ E.acFindIter [w] (window w front record.data),
      OccursAt w (front ++ record.data) (front.length - (w.length - 1) + m.start) ∧
        front.length - (w.length - 1) + m.start < front.length ∧
        front.length < front.length - (w.length - 1) + m.finish := by
    intro m hm
    obtain ⟨-, hfin, hocc⟩ := hbridge.sound m hm
    have hend := hocc.end_le hw
    refine ⟨(occursAt_window hend).mp hocc, ?_⟩
    rw [length_window] at hend
    omega
  rw [CompiledGroup.literalHits, hg.literals, CompiledGroup.bridgeHits_eq hE hg hw hoff,
    CompiledGroup.dataHits_eq hE hg hw, List.isEmpty_cons, if_neg Bool.false_ne_true]
  refine ⟨fun hit hhit ↦ ?_, fun s hocc hlate ↦ ?_, ?_⟩
  · rcases List.mem_append.mp hhit with hhit | hhit
    · obtain ⟨m, hm, rfl⟩ := List.mem_map.mp hhit
      obtain ⟨-, hfin, -⟩ := hbridge.sound m hm
      obtain ⟨hocc, -, hafter⟩ := hwindow m hm
      exact ⟨_, hocc, by omega, by simp only [matchRecord]; omega,
        by simp only [matchRecord]; omega⟩
    · obtain ⟨m, hm, rfl⟩ := List.mem_map.mp hhit
      obtain ⟨-, hfin, hocc⟩ := hinner.sound m hm
      exact ⟨_, occursAt_append_left.mpr hocc, by omega, by simp only [matchRecord]; omega,
        by simp only [matchRecord]; omega⟩
  · have hend := hocc.end_le hw
    rw [List.length_append] at hend
    by_cases hstart : s < front.length
    · obtain ⟨t, rfl⟩ : ∃ t, s = front.length - (w.length - 1) + t :=
        ⟨s - (front.length - (w.length - 1)), by omega⟩
      have hroom : t + w.length ≤ (window w front record.data).length := by
        rw [length_window]
        omega
      obtain ⟨m, hm, hbefore, hafter⟩ := hbridge.complete t ((occursAt_window hroom).mpr hocc)
      refine ⟨_, List.mem_append_left _ (List.mem_map_of_mem hm), ?_, ?_⟩
      · simp only [matchRecord]
        omega
      · simp only [matchRecord]
        omega
    · obtain ⟨t, rfl⟩ : ∃ t, s = front.length + t := ⟨s - front.length, by omega⟩
      obtain ⟨m, hm, hbefore, hafter⟩ := hinner.complete t (occursAt_append_left.mp hocc)
      refine ⟨_, List.mem_append_right _ (List.mem_map_of_mem hm), ?_, ?_⟩
      · simp only [matchRecord]
        omega
      · simp only [matchRecord]
        omega
  · refine List.pairwise_append.mpr ⟨?_, ?_, ?_⟩
    · refine List.pairwise_map.mpr (hbridge.apart.imp_of_mem fun {m m'} hm hm' hle ↦ ?_)
      obtain ⟨-, hfin, -⟩ := hbridge.sound m hm
      simp only [matchRecord]
      omega
    · refine List.pairwise_map.mpr (hinner.apart.imp_of_mem fun {m m'} hm hm' hle ↦ ?_)
      obtain ⟨-, hfin, -⟩ := hinner.sound m hm
      simp only [matchRecord]
      omega
    · intro hit hhit hit' hhit'
      obtain ⟨m, hm, rfl⟩ := List.mem_map.mp hhit
      obtain ⟨m', hm', rfl⟩ := List.mem_map.mp hhit'
      obtain ⟨-, hbefore, -⟩ := hwindow m hm
      simp only [matchRecord]
      omega

/-- The hits of a record and those of the rest of the stream. -/
theorem Covers.append (hw : w ≠ []) (h : Covers w front data base hits)
    (h' : Covers w (front ++ data) rest base hits') :
    Covers w front (data ++ rest) base (hits ++ hits') := by
  have hassoc : front ++ (data ++ rest) = front ++ data ++ rest := (List.append_assoc _ _ _).symm
  refine ⟨fun hit hhit ↦ ?_, fun s hocc hlate ↦ ?_, List.pairwise_append.mpr ⟨h.apart, h'.apart, ?_⟩⟩
  · rw [hassoc]
    rcases List.mem_append.mp hhit with hhit | hhit
    · obtain ⟨s, hocc, hrest⟩ := h.sound hit hhit
      exact ⟨s, (occursAt_append_right (hocc.end_le hw)).mpr hocc, hrest⟩
    · obtain ⟨s, hocc, hlate, hrest⟩ := h'.sound hit hhit
      rw [List.length_append] at hlate
      exact ⟨s, hocc, by omega, hrest⟩
  · rw [hassoc] at hocc
    by_cases hin : s + w.length ≤ (front ++ data).length
    · obtain ⟨hit, hhit, hover⟩ := h.complete s ((occursAt_append_right hin).mp hocc) hlate
      exact ⟨hit, List.mem_append_left _ hhit, hover⟩
    · obtain ⟨hit, hhit, hover⟩ := h'.complete s hocc (by omega)
      exact ⟨hit, List.mem_append_right _ hhit, hover⟩
  · intro hit hhit hit' hhit'
    obtain ⟨s, hocc, -, hstart, -⟩ := h.sound hit hhit
    obtain ⟨s', -, hlate, hstart', -⟩ := h'.sound hit' hhit'
    have hend := hocc.end_le hw
    omega

end

end Bazalt.Matching

namespace Bazalt.Replay

open Bazalt.Lib Matching

/-- The records are a stream of one key in contiguous non-empty pieces, from the offset on. -/
def CutInto (key : StreamKey) : ℕ → Bytes → List ContentRecord → Prop
  | _, stream, [] => stream = []
  | offset, stream, record :: records =>
      streamKey record = key ∧ record.streamOffset = offset ∧ record.data ≠ [] ∧
        record.data <+: stream ∧
          CutInto key (offset + record.data.length) (stream.drop record.data.length) records

/-- No scan of the run reaches a limit. -/
def Unlimited (E : Engines) (sc : ReplayScanner) (records : List ContentRecord) : Prop :=
  Along (fun sc record ↦ (ReplayScanner.scanRecord E sc record).1)
    (fun sc record ↦ (sc.scanRecord E record).2.limited = false) sc records

/-- The group is the only one that scans the record. -/
def ScannedBy (set : CompiledPatternSet) (g : CompiledGroup) (record : ContentRecord) : Prop :=
  set.groupsFor record = (some g, none) ∨ set.groupsFor record = (none, some g)

/-- Every hit spells the literal, every occurrence is a hit or overlaps one, and no place is
reported twice. -/
structure SoundAndComplete (w stream : Bytes) (start : ℕ) (hits : List MatchRecord) : Prop where
  spells : ∀ hit ∈ hits, ∃ s, hit.offsetStart = start + s ∧
    hit.offsetEnd = start + s + w.length ∧ (stream.drop s).take w.length = w
  found : ∀ s, (stream.drop s).take w.length = w →
    ∃ hit ∈ hits, hit.offsetStart < start + s + w.length ∧ start + s < hit.offsetEnd
  once : (hits.map fun hit ↦ (hit.offsetStart, hit.offsetEnd)).Nodup

section

variable {E : Engines} {sc : ReplayScanner} {g : CompiledGroup} {p : PatternRevision}
  {w front : Bytes} {record : ContentRecord} {base : ℕ}

theorem isInterested_of_scannedBy {set : CompiledPatternSet} (h : ScannedBy set g record) :
    set.isInterested record = true := by
  rcases h with h | h
  · simp [CompiledPatternSet.isInterested, h]
  · simp [CompiledPatternSet.isInterested, h]

theorem requiredOverlap_of_scannedBy {set : CompiledPatternSet} (h : ScannedBy set g record)
    (hg : g.Single p w) (overlapLimit : ℕ) :
    set.requiredOverlap record overlapLimit = w.length - 1 := by
  have hgroup : g.requiredOverlap overlapLimit = w.length - 1 := by
    simp [CompiledGroup.requiredOverlap, hg.regexes, hg.maxLiteralLen]
  unfold CompiledPatternSet.requiredOverlap
  rcases h with h | h
  · rw [h]
    exact hgroup
  · rw [h]
    exact hgroup

theorem out_scanBounded {set : CompiledPatternSet} (h : ScannedBy set g record)
    (hg : g.Single p w) {tail : Bytes} {historical : Bool} {b : Bounds}
    (hlimit : (set.scanBounded E record tail historical b).limited = false) :
    (set.scanBounded E record tail historical b).out =
      CompiledGroup.literalHits E g record tail historical := by
  unfold CompiledPatternSet.scanBounded at hlimit ⊢
  rcases h with h | h
  · simp only [h] at hlimit ⊢
    exact CompiledGroup.out_scanInto hg.regexes hlimit
  · simp only [h] at hlimit ⊢
    split_ifs at hlimit ⊢
    · cases hlimit
    · exact CompiledGroup.out_scanInto hg.regexes hlimit

/-- What is kept of a stream before the next record. -/
def TailHolds (t : Option TailState) (keep : ℕ) (front : Bytes) (base : ℕ) : Prop :=
  t = none ∧ front.rtake keep = [] ∨ t = some ⟨front.rtake keep, base + front.length, 0⟩

theorem TailHolds.prefixFor {keep : ℕ} (h : TailHolds (sc.tails (streamKey record)) keep front base)
    (hoff : record.streamOffset = base + front.length) :
    sc.tails.prefixFor record 0 = front.rtake keep := by
  rcases h with ⟨ht, hnil⟩ | ht
  · rw [Tails.prefixFor, ht, hnil]
    rfl
  · rw [Tails.prefixFor, ht, Option.map_some, Option.getD_some, TailState.prefixFor,
      if_pos ⟨rfl, hoff.symm⟩]

/-- A sweep never drops the stream of the record that it comes with. -/
theorem tails_sweep {key : StreamKey} (hseen : sc.lastSeenNs key = some record.tsNs) :
    (sc.sweep record).tails key = sc.tails key := by
  have hfresh : ((sc.lastSeenNs key).any fun ts ↦
      decide (ts < record.tsNs - 300000000000)) = false := by
    rw [hseen, Option.any_some, decide_eq_false_iff_not, Nat.not_lt]
    exact Nat.sub_le _ _
  simp only [ReplayScanner.sweep, hfresh, Bool.false_eq_true, if_false]

theorem tails_scanRecord (h : ScannedBy sc.patterns g record) :
    (sc.scanRecord E record).1.tails (streamKey record) =
      (scanWithTail E sc.patterns sc.overlapLimit sc.bounds true 0 sc.tails record).1
        (streamKey record) := by
  unfold ReplayScanner.scanRecord
  simp only [isInterested_of_scannedBy h, if_true]
  split_ifs
  · exact tails_sweep (Function.update_self _ _ _)
  · rfl

theorem TailHolds.scanRecord (h : TailHolds (sc.tails (streamKey record)) (w.length - 1) front base)
    (hscanned : ScannedBy sc.patterns g record) (hg : g.Single p w)
    (hoff : record.streamOffset = base + front.length)
    (hfits : base + front.length + record.data.length ≤ u64Max) :
    TailHolds ((sc.scanRecord E record).1.tails (streamKey record)) (w.length - 1)
      (front ++ record.data) base := by
  rw [tails_scanRecord hscanned]
  unfold scanWithTail
  simp only [isInterested_of_scannedBy hscanned, if_true, requiredOverlap_of_scannedBy hscanned hg,
    Function.update_self, h.prefixFor hoff]
  split_ifs with hone
  · exact .inl ⟨rfl, by rw [hone, List.rtake_zero]⟩
  · refine .inr ?_
    rw [buildTail_rtake, hoff, satAdd_of_le hfits, List.length_append, Nat.add_assoc]

theorem out_scanRecord (h : TailHolds (sc.tails (streamKey record)) (w.length - 1) front base)
    (hscanned : ScannedBy sc.patterns g record) (hg : g.Single p w)
    (hoff : record.streamOffset = base + front.length)
    (hlimit : (sc.scanRecord E record).2.limited = false) :
    (sc.scanRecord E record).2.out =
      CompiledGroup.literalHits E g record (front.rtake (w.length - 1)) true := by
  rw [ReplayScanner.scanRecord_snd] at hlimit ⊢
  unfold scanWithTail at hlimit ⊢
  simp only [isInterested_of_scannedBy hscanned, if_true, h.prefixFor hoff] at hlimit ⊢
  exact out_scanBounded hscanned hg hlimit

/-- The run lemma: what is left of the stream, after `front`. -/
theorem covers_scannerHits (hE : E.Standard) (hg : g.Single p w) (hw : w ≠ []) {key : StreamKey}
    {records : List ContentRecord} {rest : Bytes}
    (hcut : CutInto key (base + front.length) rest records)
    (hfits : base + front.length + rest.length ≤ u64Max)
    (hscanned : ∀ record ∈ records, ScannedBy sc.patterns g record)
    (htail : TailHolds (sc.tails key) (w.length - 1) front base)
    (hlimit : Unlimited E sc records) :
    Covers w front rest base ((scannerHits E sc records).map Prod.snd) := by
  induction records generalizing sc front rest with
  | nil =>
      obtain rfl : rest = [] := hcut
      refine ⟨by simp [scannerHits], fun s hocc hlate ↦ ?_, by simp [scannerHits]⟩
      have hend := hocc.end_le hw
      rw [List.append_nil] at hend
      omega
  | cons record records ih =>
      obtain ⟨rfl, hoff, -, ⟨rest, rfl⟩, hcut⟩ := hcut
      rw [List.drop_left, Nat.add_assoc, ← List.length_append] at hcut
      rw [List.length_append] at hfits
      have hgroup := hscanned record List.mem_cons_self
      have hhits := covers_literalHits hE hg hw hoff true
      rw [← out_scanRecord htail hgroup hg hoff hlimit.1] at hhits
      have hconfig : (sc.scanRecord E record).1.patterns = sc.patterns :=
        (sc.scanRecord_config E record).1
      have hrest := ih hcut (by rw [List.length_append]; omega)
        (fun r hr ↦ hconfig ▸ hscanned r (List.mem_cons_of_mem _ hr))
        (htail.scanRecord hgroup hg hoff (by omega)) hlimit.2
      have hall := hhits.append hw hrest
      simpa [scannerHits, Function.comp_def] using hall

end

theorem take_drop_eq_iff {w stream : Bytes} {s : ℕ} :
    (stream.drop s).take w.length = w ↔ OccursAt w stream s := by
  rw [OccursAt, List.prefix_iff_eq_take, eq_comm]

theorem literal_streaming (E : Engines) (hE : E.Standard) (p : PatternRevision) (w : Bytes)
    (hp : literal? E p = some w) (hw : w ≠ []) (g : CompiledGroup)
    (hg : CompiledGroup.compile E [p] = some g) (sc : ReplayScanner) (key : StreamKey)
    (hnew : sc.tails key = none) (start : ℕ) (stream : Bytes)
    (hfits : start + stream.length ≤ u64Max) (records : List ContentRecord)
    (hcut : CutInto key start stream records)
    (hscanned : ∀ record ∈ records, ScannedBy sc.patterns g record)
    (hlimit : Unlimited E sc records) :
    SoundAndComplete w stream start ((scannerHits E sc records).map Prod.snd) := by
  have hcovers : Covers w [] stream start ((scannerHits E sc records).map Prod.snd) :=
    covers_scannerHits hE (CompiledGroup.single_of_compile hg hp) hw hcut hfits hscanned
      (.inl ⟨hnew, List.rtake_nil _⟩) hlimit
  refine ⟨fun hit hhit ↦ ?_, fun s hocc ↦ ?_, ?_⟩
  · obtain ⟨s, hocc, -, hstart, hfinish⟩ := hcovers.sound hit hhit
    exact ⟨s, hstart, hfinish, take_drop_eq_iff.mpr hocc⟩
  · refine hcovers.complete s (take_drop_eq_iff.mp hocc) ?_
    have := List.length_pos_iff.mpr hw
    rw [List.length_nil]
    omega
  · refine List.pairwise_map.mpr (hcovers.apart.imp fun hlt heq ↦ ?_)
    rw [Prod.mk.injEq] at heq
    omega

/-- The text `aba`, which overlaps itself. -/
def abaPattern : PatternRevision := { id := 1, revision := 1, expression := "aba", kind := .text }

theorem abaPattern_compile :
    (ReplayScanner.new referenceEngines [abaPattern] 4096 {}).isSome = true ∧
      (CompiledGroup.compile referenceEngines [abaPattern]).isSome = true := by
  decide +kernel

/-- The stream `ababa` in pieces that are shorter than the literal. -/
def abaRecords : List ContentRecord :=
  [⟨1, 9, 0, none, .aToB, .tcpRaw, 0, [97]⟩, ⟨2, 9, 0, none, .aToB, .tcpRaw, 1, [98]⟩,
    ⟨3, 9, 0, none, .aToB, .tcpRaw, 2, [97, 98]⟩, ⟨4, 9, 0, none, .aToB, .tcpRaw, 4, [97]⟩]

theorem literal_streaming_abaRecords :
    SoundAndComplete [97, 98, 97] [97, 98, 97, 98, 97] 0 ((scannerHits referenceEngines
      ((ReplayScanner.new referenceEngines [abaPattern] 4096 {}).get abaPattern_compile.1)
        abaRecords).map Prod.snd) := by
  have hscanned : ∀ record ∈ abaRecords, ((ReplayScanner.new referenceEngines [abaPattern] 4096
      {}).get abaPattern_compile.1).patterns.groupsFor record =
        (some ((CompiledGroup.compile referenceEngines [abaPattern]).get abaPattern_compile.2),
          none) := by
    decide +kernel
  have hlimit : Unlimited referenceEngines
      ((ReplayScanner.new referenceEngines [abaPattern] 4096 {}).get abaPattern_compile.1)
      abaRecords := by
    unfold Unlimited
    decide +kernel
  refine literal_streaming referenceEngines referenceEngines_standard abaPattern _
    (by decide +kernel) (by decide) _ (Option.some_get abaPattern_compile.2).symm _
    ⟨9, .aToB, .tcpRaw⟩ (by decide +kernel) 0 _ (by decide) abaRecords ?_
    (fun record hrecord ↦ .inl (hscanned record hrecord)) hlimit
  exact ⟨rfl, rfl, by decide, by decide, rfl, rfl, by decide, by decide, rfl, rfl, by decide,
    by decide, rfl, rfl, by decide, by decide, rfl⟩

end Bazalt.Replay
