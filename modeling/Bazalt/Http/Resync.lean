import Bazalt.Http.Watch

/-!
# Resynchronisation

After a gap or an error a parser looks for a start of a message at line boundaries.  When it
finds none it keeps the last bytes, in which a start may have begun.
-/

namespace Bazalt.Http

open Lib

section Start

/-- The part of a start of a message behind its method. -/
def looksLikeTarget (method rest : Bytes) : Bool :=
  match rest with
  | [] => false
  | first :: _ =>
      if method = ascii "CONNECT" then !isAsciiWhitespace first
      else decide (ascii "/" <+: rest ∨ ascii "*" <+: rest ∨ ascii "http://" <+: rest ∨
        ascii "https://" <+: rest)

def isMethod (method : Bytes) : Bool := method.all fun b ↦ isAsciiUppercase b || b == 45

theorem ne_of_isMethod {method : Bytes} (h : isMethod method = true) {b : UInt8}
    (hb : b ∈ method) : b ≠ 32 ∧ b ≠ 10 := by
  have hbyte := List.all_eq_true.mp h b hb
  constructor
  · rintro rfl
    cases hbyte
  · rintro rfl
    cases hbyte

/-- The method of a start ends at the first space. -/
theorem findIdx?_space {method rest : Bytes} (hlen : method.length ≤ 16)
    (h : isMethod method = true) :
    ((method ++ 32 :: rest).take 17).findIdx? (· == 32) = some method.length := by
  rw [List.findIdx?_eq_some_iff_getElem]
  refine ⟨?_, ?_, fun j hj ↦ ?_⟩
  · simp only [List.length_take, List.length_append, List.length_cons]
    omega
  · simp
  · simp only [List.getElem_take, List.getElem_append_left hj, beq_iff_eq]
    exact (ne_of_isMethod h (List.getElem_mem hj)).1

theorem looksLikeHttpStart_eq (v : Bytes) : looksLikeHttpStart v =
    if ascii "HTTP/" <+: v then true
    else match (v.take 17).findIdx? (· == 32) with
      | none => false
      | some m =>
          if ¬(1 ≤ m ∧ m ≤ 16) then false
          else if ¬isMethod (v.take m) then false
          else looksLikeTarget (v.take m) (v.drop (m + 1)) := rfl

/-- A start is a status line, or a method, a space and a target. -/
theorem looksLikeHttpStart_iff {v : Bytes} : looksLikeHttpStart v = true ↔
    ascii "HTTP/" <+: v ∨ ∃ method rest, v = method ++ 32 :: rest ∧ 1 ≤ method.length ∧
      method.length ≤ 16 ∧ isMethod method = true ∧ looksLikeTarget method rest = true := by
  rw [looksLikeHttpStart_eq]
  by_cases hhttp : ascii "HTTP/" <+: v
  · rw [if_pos hhttp]
    exact ⟨fun _ ↦ .inl hhttp, fun _ ↦ rfl⟩
  · rw [if_neg hhttp]
    constructor
    · intro h
      split at h
      · cases h
      next m hm =>
        obtain ⟨hlt, hspace, -⟩ := List.findIdx?_eq_some_iff_getElem.mp hm
        rw [List.length_take] at hlt
        rw [List.getElem_take, beq_iff_eq] at hspace
        have hlong : 1 ≤ m ∧ m ≤ 16 := by
          by_contra hshort
          rw [if_pos hshort] at h
          cases h
        have hmethod : isMethod (v.take m) = true := by
          by_contra hbad
          rw [if_neg (not_not.mpr hlong), if_pos hbad] at h
          cases h
        rw [if_neg (not_not.mpr hlong), if_neg (not_not.mpr hmethod)] at h
        have hlen : (v.take m).length = m := by
          rw [List.length_take]
          omega
        refine .inr ⟨v.take m, v.drop (m + 1), ?_, by omega, by omega, hmethod, h⟩
        rw [← hspace, List.getElem_cons_drop, List.take_append_drop]
    · rintro (hpre | ⟨method, rest, rfl, hpos, hlen, hmethod, htarget⟩)
      · exact absurd hpre hhttp
      · have hdrop : (method ++ 32 :: rest).drop (method.length + 1) = rest := by
          rw [← List.drop_drop, List.drop_left]
          rfl
        rw [findIdx?_space hlen hmethod]
        dsimp only
        rw [List.take_left, hdrop, if_neg (by omega), if_neg (not_not.mpr hmethod)]
        exact htarget

/-- A target whose beginning `v` is not enough to tell. -/
theorem open_target {method v more : Bytes} (h : looksLikeTarget method (v ++ more) = true)
    (hopen : ¬looksLikeTarget method v = true) : v.length < 8 ∧ 10 ∉ v := by
  have hword : ∀ word : Bytes, 10 ∉ word → word <+: v ++ more → ¬word <+: v →
      v.length < word.length ∧ 10 ∉ v := by
    intro word hline hword hnot
    have hlt : v.length < word.length := by
      by_contra hge
      exact hnot (List.prefix_of_prefix_length_le hword (List.prefix_append _ _) (not_lt.mp hge))
    have hpart : v <+: word :=
      List.prefix_of_prefix_length_le (List.prefix_append _ _) hword hlt.le
    exact ⟨hlt, fun hmem ↦ hline (hpart.subset hmem)⟩
  cases v with
  | nil => simp
  | cons first v =>
      rw [List.cons_append, looksLikeTarget] at h
      rw [looksLikeTarget] at hopen
      by_cases hconnect : method = ascii "CONNECT"
      · rw [if_pos hconnect] at h hopen
        exact absurd h hopen
      · rw [if_neg hconnect, decide_eq_true_eq] at h hopen
        rw [not_or, not_or, not_or] at hopen
        rcases h with h | h | h | h
        · obtain ⟨hlt, hline⟩ := hword (ascii "/") (by decide +kernel) h hopen.1
          exact ⟨hlt.trans_le (by decide), hline⟩
        · obtain ⟨hlt, hline⟩ := hword (ascii "*") (by decide +kernel) h hopen.2.1
          exact ⟨hlt.trans_le (by decide), hline⟩
        · obtain ⟨hlt, hline⟩ := hword (ascii "http://") (by decide +kernel) h hopen.2.2.1
          exact ⟨hlt.trans_le (by decide), hline⟩
        · obtain ⟨hlt, hline⟩ := hword (ascii "https://") (by decide +kernel) h hopen.2.2.2
          exact ⟨hlt, hline⟩

/-- A start whose beginning `v` is not enough to tell: it is shorter than the 25 bytes of the
longest method and `https://`, and on one line. -/
theorem open_start {v more : Bytes} (h : looksLikeHttpStart (v ++ more) = true)
    (hopen : looksLikeHttpStart v = false) : v.length < 25 ∧ 10 ∉ v := by
  have hnot : ¬looksLikeHttpStart v = true := by simp [hopen]
  rw [looksLikeHttpStart_iff] at h hnot
  obtain ⟨hhttp, hmethods⟩ := not_or.mp hnot
  rcases h with hpre | ⟨method, rest, heq, hpos, hlen, hmethod, htarget⟩
  · have hlt : v.length < (ascii "HTTP/").length := by
      by_contra hge
      exact hhttp (List.prefix_of_prefix_length_le hpre (List.prefix_append _ _)
        (not_lt.mp hge))
    have hpart : v <+: ascii "HTTP/" :=
      List.prefix_of_prefix_length_le (List.prefix_append _ _) hpre hlt.le
    exact ⟨hlt.trans_le (by decide), fun hmem ↦ absurd (hpart.subset hmem) (by decide +kernel)⟩
  · rcases List.append_eq_append_iff.mp heq with ⟨u, hu, hmore⟩ | ⟨u, hu, hrest⟩
    · -- the beginning ends in the method
      have hpart : v <+: method := ⟨u, hu.symm⟩
      have hle := hpart.length_le
      exact ⟨by omega, fun hmem ↦ (ne_of_isMethod hmethod (hpart.subset hmem)).2 rfl⟩
    · cases u with
      | nil =>
          rw [List.append_nil] at hu
          subst hu
          exact ⟨by omega, fun hmem ↦ (ne_of_isMethod hmethod hmem).2 rfl⟩
      | cons b u =>
          obtain ⟨rfl, rfl⟩ := List.cons.inj hrest
          have htail : ¬looksLikeTarget method u = true := fun htarget' ↦
            hmethods ⟨method, u, hu, hpos, hlen, hmethod, htarget'⟩
          obtain ⟨hshort, hline⟩ := open_target htarget htail
          subst hu
          refine ⟨?_, fun hmem ↦ ?_⟩
          · simp only [List.length_append, List.length_cons]
            omega
          · rcases List.mem_append.mp hmem with hin | hin
            · exact (ne_of_isMethod hmethod hin).2 rfl
            · rcases List.mem_cons.mp hin with hspace | hin
              · cases hspace
              · exact hline hin

/-- A start of a message at the first byte or after a line feed. -/
structure StartsAt (v : Bytes) (i : ℕ) : Prop where
  line : i = 0 ∨ v[i - 1]? = some 10
  start : looksLikeHttpStart (v.drop i) = true

theorem StartsAt.lt {v : Bytes} {i : ℕ} (h : StartsAt v i) : i < v.length := by
  by_contra hge
  have hstart := h.start
  rw [List.drop_eq_nil_of_le (not_lt.mp hge)] at hstart
  exact absurd hstart (by decide +kernel)

theorem startsAt_of_find {v : Bytes} {pos : ℕ} (h : findPlausibleHttpStart v = some pos) :
    StartsAt v pos ∧ ∀ i < pos, ¬StartsAt v i := by
  unfold findPlausibleHttpStart at h
  split_ifs at h with hstart
  · obtain rfl := Option.some.inj h
    exact ⟨⟨.inl rfl, hstart⟩, fun i hi ↦ absurd hi (Nat.not_lt_zero i)⟩
  · obtain ⟨i, hi, rfl⟩ := Option.map_eq_some_iff.mp h
    obtain ⟨hline, -, hfirst⟩ := List.find?_range_eq_some.mp hi
    simp only [Bool.and_eq_true, beq_iff_eq, decide_eq_true_eq] at hline
    refine ⟨⟨.inr hline.1.1, hline.2⟩, fun j hj hat ↦ ?_⟩
    cases j with
    | zero => exact hstart hat.start
    | succ j =>
        have hbefore := hfirst j (by omega)
        have hlt := hat.lt
        have hfeed : v[j]? = some 10 := hat.line.resolve_left (Nat.succ_ne_zero j)
        simp [hfeed, hlt, hat.start] at hbefore

theorem find_of_startsAt {v : Bytes} {i : ℕ} (h : StartsAt v i) :
    ∃ pos ≤ i, findPlausibleHttpStart v = some pos := by
  cases hfind : findPlausibleHttpStart v with
  | some pos =>
      refine ⟨pos, ?_, rfl⟩
      by_contra hlt
      exact (startsAt_of_find hfind).2 i (not_le.mp hlt) h
  | none =>
      exfalso
      unfold findPlausibleHttpStart at hfind
      split_ifs at hfind with hstart
      rw [Option.map_eq_none_iff, List.find?_eq_none] at hfind
      cases i with
      | zero => exact hstart h.start
      | succ i =>
          have hlt := h.lt
          have hnot := hfind i (List.mem_range.mpr (by omega))
          have hfeed : v[i]? = some 10 := h.line.resolve_left (Nat.succ_ne_zero i)
          simp [hfeed, hlt, h.start] at hnot

end Start

section Boundary

/-- A parser that found a start again, at its first byte, with the byte before it.  There is none
at the place where the parser had lost the framing. -/
structure Resync where
  direction : Direction
  parser : HttpStreamParser
  before : Option UInt8
  deriving DecidableEq, Repr

/-- A cut in the buffer: the byte before it and the bytes that are kept. -/
structure Trim where
  before : Option UInt8
  kept : Bytes
  deriving DecidableEq, Repr

/-- What is noted of the searches: the byte before the buffer of a parser, the starts that
were found and the cuts. -/
structure Search where
  edge : Direction → Option UInt8 := fun _ ↦ none
  resyncs : List Resync := []
  trims : List Trim := []

namespace Search

variable (g : Search) (d : Direction)

def setEdge (b : Option UInt8) : Search := { g with edge := Function.update g.edge d b }

/-- The parser `p` has become `p'`, which keeps the last bytes. -/
def trim (p p' : HttpStreamParser) : Search :=
  let drop := p.buffer.length - p'.buffer.length
  if drop = 0 then g
  else
    { g.setEdge d p.buffer[drop - 1]? with
      trims := g.trims ++ [⟨p.buffer[drop - 1]?, p'.buffer⟩] }

/-- A synchronised parser looks for the end of a header block.  If it loses the framing, it
is at the first byte of its buffer or behind the block. -/
def header (cfg : HttpConfig) (p : HttpStreamParser) : Search :=
  match findDoubleCrlfFrom p.buffer p.headerScanFrom with
  | none =>
      if cfg.httpMaxHeaderBytes < p.buffer.length then
        (g.setEdge d none).trim d p p.trimDesyncedSuffix
      else g.setEdge d none
  | some _ => g.setEdge d none

/-- The parser `p` has become `p'`, which is synchronised. -/
def found (p p' : HttpStreamParser) : Search :=
  let drop := p.buffer.length - p'.buffer.length
  { g with resyncs := g.resyncs ++ [{
      direction := d
      parser := p'
      before := if drop = 0 then g.edge d else p.buffer[drop - 1]? }] }

def headers (cfg : HttpConfig) (p : HttpStreamParser) : Search :=
  if p.synced then g.header d cfg p
  else if p.ready.2 then (g.found d p p.ready.1).header d cfg p.ready.1
  else g.trim d p p.ready.1

end Search

/-- Outside of header blocks a parser loses the framing at the first byte of its buffer. -/
def searchWatch (cfg : HttpConfig) : Watch Search where
  chunk p c g := if p.nextInputOffset = some c.offset then g else g.setEdge c.direction none
  round c f g := match f.parser.state with
    | .headers => g.headers c.direction cfg f.parser
    | _ => g.setEdge c.direction none

variable {cfg : HttpConfig} {c : StreamChunk} {d : Direction} {g : Search} {f : Feed}
  {p : HttpStreamParser} {e : Option UInt8}

/-- The cuts are at line boundaries, or do not look like a start. -/
def TrimsClean (g : Search) : Prop :=
  ∀ t ∈ g.trims, t.before = some 10 ∨ looksLikeHttpStart t.kept = false

/-- A parser that lost the framing looks for a header block, and a cut that is not at a line
boundary is not taken for a start. -/
structure Lost (p : HttpStreamParser) (e : Option UInt8) : Prop where
  headers : p.synced = false → p.state = .headers
  fresh : p.nextInputOffset = none → p.state = .headers
  clean : p.synced = false → ∀ b ∈ e, b = 10 ∨
    25 ≤ p.buffer.length ∧ looksLikeHttpStart p.buffer = false

theorem Lost.of_synced (hsynced : p.synced = true) (hnext : p.nextInputOffset ≠ none) :
    Lost p e := by
  have hnot : p.synced ≠ false := by simp [hsynced]
  exact ⟨fun h ↦ absurd h hnot, fun h ↦ absurd h hnext, fun h ↦ absurd h hnot⟩

theorem Lost.of_none (hstate : p.state = .headers) : Lost p none :=
  ⟨fun _ ↦ hstate, fun _ ↦ hstate, fun _ b hb ↦ by cases hb⟩

@[simp] theorem edge_setEdge (g : Search) (d : Direction) (b : Option UInt8) :
    (g.setEdge d b).edge d = b := Function.update_self _ _ _

theorem buffer_trimDesyncedSuffix : p.trimDesyncedSuffix.buffer =
    p.buffer.drop (p.buffer.length - httpResyncSuffix) := by
  unfold HttpStreamParser.trimDesyncedSuffix
  dsimp only
  split_ifs with hdrop
  · rw [hdrop, List.drop_zero]
  · rfl

/-- A search that fails. -/
theorem ready_of_find_none (hsynced : p.synced = false)
    (hfind : findPlausibleHttpStart p.buffer = none) : p.ready = (p.trimDesyncedSuffix, false) := by
  simp [HttpStreamParser.ready, hsynced, HttpStreamParser.resyncToHttpStart, hfind]

/-- A search that finds a start: the parser is synchronised there. -/
theorem ready_of_find (hsynced : p.synced = false) {pos : ℕ}
    (hfind : findPlausibleHttpStart p.buffer = some pos) :
    p.ready.2 = true ∧ p.ready.1.synced = true ∧ p.ready.1.buffer = p.buffer.drop pos ∧
      (p.streamOffset + pos ≤ u64Max → p.ready.1.streamOffset = p.streamOffset + pos) := by
  rw [HttpStreamParser.ready, if_neg (by simp [hsynced]), HttpStreamParser.resyncToHttpStart, hfind]
  refine ⟨rfl, rfl, ?_, fun hbound ↦ ?_⟩
  · dsimp only
    split_ifs with hpos
    · rw [hpos, List.drop_zero]
    · rfl
  · dsimp only
    split_ifs with hpos
    · rw [hpos, Nat.add_zero]
    · exact satAdd_of_le hbound

theorem trimsClean_of_trim {p' : HttpStreamParser} (h : TrimsClean (g.trim d p p')) :
    TrimsClean g := by
  intro t ht
  refine h t ?_
  unfold Search.trim
  dsimp only
  split_ifs
  · exact ht
  · exact List.mem_append_left _ ht

theorem trimsClean_of_header (h : TrimsClean (g.header d cfg p)) : TrimsClean g := by
  unfold Search.header at h
  split at h
  · split at h
    · have hbefore := trimsClean_of_trim h
      exact hbefore
    · exact h
  · exact h

/-- Keeping the last bytes. -/
theorem Lost.trim (h : Lost p (g.edge d)) (hstate : p.state = .headers)
    {q : HttpStreamParser} (hq : q.buffer = p.buffer)
    (hclean : TrimsClean (g.trim d q q.trimDesyncedSuffix)) :
    Lost p.trimDesyncedSuffix ((g.trim d q q.trimDesyncedSuffix).edge d) := by
  have hlength : q.buffer.length - q.trimDesyncedSuffix.buffer.length =
      p.buffer.length - httpResyncSuffix := by
    rw [buffer_trimDesyncedSuffix, List.length_drop, hq]
    omega
  have hbuffer : q.trimDesyncedSuffix.buffer =
      p.buffer.drop (p.buffer.length - httpResyncSuffix) := by
    rw [buffer_trimDesyncedSuffix, hq]
  unfold Search.trim at hclean ⊢
  rw [hlength, hbuffer, hq] at hclean
  rw [hlength, hbuffer, hq]
  unfold HttpStreamParser.trimDesyncedSuffix
  dsimp only at hclean ⊢
  by_cases hdrop : p.buffer.length - httpResyncSuffix = 0
  · rw [if_pos hdrop, if_pos hdrop]
    exact h
  · rw [if_neg hdrop, if_neg hdrop]
    rw [if_neg hdrop] at hclean
    refine ⟨fun _ ↦ hstate, fun _ ↦ hstate, fun _ b hb ↦ ?_⟩
    have hb' : p.buffer[p.buffer.length - httpResyncSuffix - 1]? = some b := by
      simpa [Search.setEdge] using hb
    rcases hclean ⟨_, _⟩ (List.mem_append_right _ List.mem_cons_self) with hline | hkept
    · rw [hb', Option.some.injEq] at hline
      exact .inl hline
    · refine .inr ⟨?_, hkept⟩
      simp only [HttpStreamParser.advance, List.length_drop, httpResyncSuffix]
      simp only [httpResyncSuffix] at hdrop
      omega

/-- A parser that is synchronised and looks for a header block. -/
theorem lost_header (hstate : f.parser.state = .headers) (hsynced : f.parser.ready.2 = true)
    (hnext : f.parser.nextInputOffset ≠ none)
    (hclean : TrimsClean (g.header d cfg f.parser.ready.1)) :
    Lost (Feed.turnHeaders cfg c f).state.parser ((g.header d cfg f.parser.ready.1).edge d) := by
  have hready : f.parser.ready.1.state = .headers :=
    HttpStreamParser.state_ready.trans hstate
  have hoffset : f.parser.ready.1.nextInputOffset ≠ none := by
    obtain ⟨k, hpasses⟩ : ∃ k, HttpStreamParser.Passes f.parser f.parser.ready.1 k :=
      HttpStreamParser.passes_ready
    rwa [hpasses.next]
  have hup : f.parser.ready.1.synced = true := HttpStreamParser.synced_ready hsynced
  unfold Feed.turnHeaders
  unfold Search.header at hclean ⊢
  dsimp only
  rw [if_neg (by simp [hsynced])]
  cases hfind : findDoubleCrlfFrom f.parser.ready.1.buffer f.parser.ready.1.headerScanFrom with
  | none =>
      rw [hfind] at hclean
      dsimp only at hclean ⊢
      by_cases hlong : cfg.httpMaxHeaderBytes < f.parser.ready.1.buffer.length
      · rw [if_pos hlong] at hclean ⊢
        rw [if_pos hlong]
        have hlost : Lost { f.parser.ready.1 with synced := false, headerScanFrom := 0 }
            ((g.setEdge d none).edge d) := by
          rw [edge_setEdge]
          exact Lost.of_none hready
        exact hlost.trim hready rfl hclean
      · rw [if_neg hlong, if_neg hlong]
        exact Lost.of_synced hup hoffset
  | some finish =>
      dsimp only
      rw [edge_setEdge]
      cases cfg.parseHeader (f.parser.ready.1.buffer.take (finish + 4)) with
      | none => exact Lost.of_none hready
      | some parsed =>
          dsimp only
          unfold Feed.onHeader
          dsimp only
          split_ifs
          · exact Lost.of_none rfl
          · split
            · exact Lost.of_synced hup hoffset
            · exact Lost.of_none rfl

/-- Every start that was found is at a line boundary, or where the framing was lost. -/
def AtBoundaries (g : Search) : Prop :=
  ∀ e ∈ g.resyncs, e.before = none ∨ e.before = some 10

theorem resyncs_trim (p p' : HttpStreamParser) : (g.trim d p p').resyncs = g.resyncs := by
  unfold Search.trim
  dsimp only
  split_ifs <;> rfl

theorem resyncs_header : (g.header d cfg p).resyncs = g.resyncs := by
  unfold Search.header
  split
  · split_ifs
    · exact resyncs_trim _ _
    · rfl
  · rfl

theorem atBoundaries_found (h : Lost p (g.edge d)) (hsynced : p.synced = false)
    (hall : AtBoundaries g) {pos : ℕ} (hpos : findPlausibleHttpStart p.buffer = some pos) :
    AtBoundaries (g.found d p p.ready.1) := by
  obtain ⟨hat, -⟩ := startsAt_of_find hpos
  obtain ⟨-, -, hbuffer, -⟩ := ready_of_find hsynced hpos
  have hdrop : p.buffer.length - p.ready.1.buffer.length = pos := by
    have hle := findPlausibleHttpStart_le hpos
    rw [hbuffer, List.length_drop]
    omega
  intro e he
  rcases List.mem_append.mp he with hold | hnew
  · exact hall e hold
  · obtain rfl := List.mem_singleton.mp hnew
    dsimp only
    rw [hdrop]
    split_ifs with hzero
    · subst hzero
      cases hedge : g.edge d with
      | none => exact .inl rfl
      | some b =>
          rcases h.clean hsynced b hedge with rfl | ⟨-, hno⟩
          · exact .inr rfl
          · have hstart := hat.start
            rw [List.drop_zero, hno] at hstart
            cases hstart
    · exact .inr (hat.line.resolve_left hzero)

theorem lost_headers (h : Lost f.parser (g.edge d)) (hstate : f.parser.state = .headers)
    (hnext : f.parser.nextInputOffset ≠ none) (hall : AtBoundaries g)
    (hclean : TrimsClean (g.headers d cfg f.parser)) :
    Lost (Feed.turnHeaders cfg c f).state.parser ((g.headers d cfg f.parser).edge d) ∧
      AtBoundaries (g.headers d cfg f.parser) := by
  unfold Search.headers at hclean ⊢
  cases hsynced : f.parser.synced with
  | true =>
      rw [hsynced, if_pos rfl] at hclean
      have hready : f.parser.ready = (f.parser, true) := by
        rw [HttpStreamParser.ready, if_pos hsynced]
      rw [if_pos rfl]
      have hlost := lost_header (c := c) hstate (by rw [hready]) hnext (by rw [hready]; exact hclean)
      rw [hready] at hlost
      refine ⟨hlost, ?_⟩
      rw [AtBoundaries, resyncs_header]
      exact hall
  | false =>
      rw [hsynced, if_neg Bool.false_ne_true] at hclean
      rw [if_neg Bool.false_ne_true]
      cases hfind : findPlausibleHttpStart f.parser.buffer with
      | none =>
          have hready := ready_of_find_none hsynced hfind
          rw [hready, if_neg Bool.false_ne_true] at hclean
          rw [hready, if_neg Bool.false_ne_true]
          refine ⟨?_, ?_⟩
          · unfold Feed.turnHeaders
            dsimp only
            rw [hready, if_pos rfl]
            exact h.trim hstate rfl hclean
          · rw [AtBoundaries, resyncs_trim]
            exact hall
      | some pos =>
          obtain ⟨hready, -⟩ := ready_of_find hsynced hfind
          rw [if_pos hready] at hclean
          rw [if_pos hready]
          refine ⟨lost_header hstate hready hnext hclean, ?_⟩
          rw [AtBoundaries, resyncs_header]
          exact atBoundaries_found h hsynced hall hfind

/-- A round in a body leaves the parser synchronised, or looking for a header block. -/
theorem lost_body (hstate : f.parser.state ≠ .headers) (hsynced : f.parser.synced = true)
    (hnext : f.parser.nextInputOffset ≠ none) : Lost (Feed.turn cfg c f).state.parser none := by
  unfold Feed.turn
  split
  next hheaders => exact absurd hheaders hstate
  next =>
    unfold Feed.turnFixed
    dsimp only
    split_ifs <;> exact Lost.of_synced hsynced hnext
  next =>
    unfold Feed.turnSkipFixed
    dsimp only
    split_ifs <;> exact Lost.of_synced hsynced hnext
  next =>
    unfold Feed.turnChunked
    by_cases hempty : f.parser.buffer = []
    · rw [if_pos hempty]
      exact Lost.of_synced hsynced hnext
    · rw [if_neg hempty]
      dsimp only
      split
      · split
        · exact Lost.of_synced hsynced hnext
        · split <;> exact Lost.of_synced hsynced hnext
      · exact Lost.of_none rfl
  next =>
    unfold Feed.turnUntilClose
    dsimp only
    split_ifs <;> exact Lost.of_synced hsynced hnext

/-- A parser in its loop, as long as the cuts are clean. -/
def Tracked (d : Direction) (f : Feed) (g : Search) : Prop :=
  f.parser.nextInputOffset ≠ none ∧
    (TrimsClean g → Lost f.parser (g.edge d) ∧ AtBoundaries g)

theorem trimsClean_of_headers (h : TrimsClean (g.headers d cfg p)) : TrimsClean g := by
  unfold Search.headers at h
  split_ifs at h
  · exact trimsClean_of_header h
  · have hfound := trimsClean_of_header h
    exact hfound
  · exact trimsClean_of_trim h

theorem Tracked.turn (h : Tracked c.direction f g) :
    Tracked c.direction (Feed.turn cfg c f).state ((searchWatch cfg).round c f g) := by
  obtain ⟨hnext, hlost⟩ := h
  refine ⟨by rwa [next_turn], fun hclean ↦ ?_⟩
  by_cases hstate : f.parser.state = .headers
  · have hround : (searchWatch cfg).round c f g = g.headers c.direction cfg f.parser := by
      simp only [searchWatch, hstate]
    rw [hround] at hclean ⊢
    obtain ⟨hparser, hall⟩ := hlost (trimsClean_of_headers hclean)
    have hturn : Feed.turn cfg c f = Feed.turnHeaders cfg c f := by rw [Feed.turn, hstate]
    rw [hturn]
    exact lost_headers hparser hstate hnext hall hclean
  · have hround : (searchWatch cfg).round c f g = g.setEdge c.direction none := by
      simp only [searchWatch]
    rw [hround] at hclean ⊢
    obtain ⟨hparser, hall⟩ := hlost hclean
    have hsynced : f.parser.synced = true := by
      cases hsync : f.parser.synced with
      | true => rfl
      | false => exact absurd (hparser.headers hsync) hstate
    rw [edge_setEdge]
    exact ⟨lost_body hstate hsynced hnext, hall⟩

/-- A chunk joins the buffer of a parser that lost the framing. -/
theorem Lost.accept (cfg : HttpConfig) (h : Lost p (g.edge c.direction))
    (pending : List RequestKind) :
    Lost (p.accept c pending).1 (((searchWatch cfg).chunk p c g).edge c.direction) := by
  unfold HttpStreamParser.accept
  simp only [searchWatch]
  by_cases hnext : p.nextInputOffset = some c.offset
  · rw [if_pos hnext, hnext]
    simp only [ne_eq, not_true_eq_false, if_false]
    refine ⟨h.headers, fun hnone ↦ (by cases hnone), fun hsynced b hb ↦ ?_⟩
    rcases h.clean hsynced b hb with hline | ⟨hlen, hno⟩
    · exact .inl hline
    · refine .inr ⟨?_, ?_⟩
      · rw [List.length_append]
        omega
      · by_contra hstart
        have hshort := (open_start (Bool.eq_true_of_not_eq_false hstart) hno).1
        omega
  · rw [if_neg hnext, edge_setEdge]
    cases hexpected : p.nextInputOffset with
    | none => exact Lost.of_none (h.fresh hexpected)
    | some expected =>
        rw [hexpected, Option.some.injEq] at hnext
        dsimp only
        rw [if_pos hnext]
        exact Lost.of_none rfl

theorem next_accept (p : HttpStreamParser) (c : StreamChunk) (pending : List RequestKind) :
    (p.accept c pending).1.nextInputOffset ≠ none := by
  unfold HttpStreamParser.accept
  dsimp only
  split
  · split_ifs <;> exact Option.some_ne_none _
  · exact Option.some_ne_none _

section Frame

variable {d' : Direction} (h : d' ≠ d)

include h

theorem edge_setEdge_of_ne (b : Option UInt8) : (g.setEdge d b).edge d' = g.edge d' :=
  Function.update_of_ne h _ _

theorem edge_trim_of_ne (p p' : HttpStreamParser) : (g.trim d p p').edge d' = g.edge d' := by
  unfold Search.trim
  dsimp only
  split_ifs
  · rfl
  · exact edge_setEdge_of_ne h _

theorem edge_header_of_ne : (g.header d cfg p).edge d' = g.edge d' := by
  unfold Search.header
  split
  · split_ifs
    · rw [edge_trim_of_ne h, edge_setEdge_of_ne h]
    · exact edge_setEdge_of_ne h _
  · exact edge_setEdge_of_ne h _

theorem edge_headers_of_ne : (g.headers d cfg p).edge d' = g.edge d' := by
  unfold Search.headers
  split_ifs
  · exact edge_header_of_ne h
  · exact edge_header_of_ne h
  · exact edge_trim_of_ne h _ _

end Frame

theorem edge_round_of_ne {d' : Direction} (h : d' ≠ c.direction) :
    ((searchWatch cfg).round c f g).edge d' = g.edge d' := by
  simp only [searchWatch]
  split
  · exact edge_headers_of_ne h
  · exact edge_setEdge_of_ne h _

/-- Both parsers of a connection, as long as the cuts are clean. -/
structure Watched.Bounded (s : Watched Search) : Prop where
  lost : ∀ d, Lost (s.connection.parser d) (s.ghost.edge d)
  boundaries : AtBoundaries s.ghost

theorem trimsClean_of_chunk (cfg : HttpConfig)
    (h : TrimsClean ((searchWatch cfg).chunk p c g)) : TrimsClean g := by
  simp only [searchWatch] at h
  split at h <;> exact h

theorem Watched.next_search (s : Watched Search) (cfg : HttpConfig) (c : StreamChunk)
    (h : TrimsClean s.ghost → s.Bounded) :
    Tracked c.direction (s.next (searchWatch cfg) cfg c).1 (s.next (searchWatch cfg) cfg c).2 ∧
      (TrimsClean (s.next (searchWatch cfg) cfg c).2 → TrimsClean s.ghost) ∧
      ∀ d ≠ c.direction, (s.next (searchWatch cfg) cfg c).2.edge d = s.ghost.edge d := by
  refine Leaves.ghost_invariant (I := fun f g ↦ Tracked c.direction f g ∧
    (TrimsClean g → TrimsClean s.ghost) ∧ ∀ d ≠ c.direction, g.edge d = s.ghost.edge d)
    (leaves_watch c _ _) (fun f g hI ↦ ?_)
    ⟨⟨next_accept _ _ _, fun hclean ↦ ?_⟩, trimsClean_of_chunk cfg, fun d hd ↦ ?_⟩
  · obtain ⟨htracked, hback, hother⟩ := hI
    refine ⟨htracked.turn, fun hclean ↦ hback ?_, fun d hd ↦ ?_⟩
    · simp only [searchWatch] at hclean
      split at hclean
      · exact trimsClean_of_headers hclean
      · exact hclean
    · rw [edge_round_of_ne hd, hother d hd]
  · have hbounded := h (trimsClean_of_chunk cfg hclean)
    refine ⟨(hbounded.lost c.direction).accept cfg _, ?_⟩
    simp only [searchWatch]
    split
    · exact hbounded.boundaries
    · exact hbounded.boundaries
  · simp only [searchWatch]
    split
    · rfl
    · exact edge_setEdge_of_ne hd _

theorem Watched.bounded_feed {s : Watched Search} (h : TrimsClean s.ghost → s.Bounded)
    (c : StreamChunk) (hclean : TrimsClean (s.feed (searchWatch cfg) cfg c).ghost) :
    (s.feed (searchWatch cfg) cfg c).Bounded := by
  cases hmode : s.connection.mode with
  | tunnel =>
      rw [Watched.feed_of_tunnel hmode] at hclean ⊢
      exact h hclean
  | http =>
      obtain ⟨hghost, hparser, -, -, hothers⟩ :=
        Watched.feed_of_http (searchWatch cfg) cfg c hmode
      obtain ⟨⟨-, htracked⟩, hback, hedges⟩ := s.next_search cfg c h
      rw [hghost] at hclean
      obtain ⟨hlost, hall⟩ := htracked hclean
      refine ⟨fun d ↦ ?_, by rwa [hghost]⟩
      by_cases hd : d = c.direction
      · subst hd
        rwa [hparser, hghost]
      · rw [hothers d hd, hghost, hedges d hd]
        exact (h (hback hclean)).lost d

theorem Watched.bounded_run (cfg : HttpConfig) (cs : List StreamChunk) (s : Watched Search)
    (h : TrimsClean s.ghost → s.Bounded) :
    TrimsClean (runFrom (Watched.feed (searchWatch cfg) cfg) s cs).ghost →
      (runFrom (Watched.feed (searchWatch cfg) cfg) s cs).Bounded := by
  induction cs generalizing s with
  | nil => exact h
  | cons c cs ih => exact ih _ (Watched.bounded_feed h c)

/-- In every run whose cuts are clean, a start is found at line boundaries only. -/
theorem atBoundaries_of_trimsClean (cfg : HttpConfig) (cs : List StreamChunk)
    (hclean : TrimsClean (runFrom (Watched.feed (searchWatch cfg) cfg) ⟨{}, {}⟩ cs).ghost) :
    AtBoundaries (runFrom (Watched.feed (searchWatch cfg) cfg) ⟨{}, {}⟩ cs).ghost := by
  refine (Watched.bounded_run cfg cs _ (fun _ ↦ ⟨fun d ↦ ?_, fun e he ↦ ?_⟩) hclean).boundaries
  · cases d <;> exact Lost.of_none rfl
  · cases he

/-- Bytes behind a hole that have no start, then a start on the next line. -/
def lineStart : List StreamChunk :=
  [{ flowId := 0, tsNs := 1, direction := .aToB, offset := 5, data := List.replicate 60 97 },
    { flowId := 0, tsNs := 2, direction := .aToB, offset := 65, data := 10 :: ascii "GET / " }]

theorem atBoundaries_lineStart :
    TrimsClean (runFrom (Watched.feed (searchWatch postConfig) postConfig) ⟨{}, {}⟩
      lineStart).ghost ∧
    AtBoundaries (runFrom (Watched.feed (searchWatch postConfig) postConfig) ⟨{}, {}⟩
      lineStart).ghost := by
  have hclean : TrimsClean (runFrom (Watched.feed (searchWatch postConfig) postConfig) ⟨{}, {}⟩
      lineStart).ghost := by
    unfold TrimsClean
    decide +kernel
  exact ⟨hclean, atBoundaries_of_trimsClean postConfig lineStart hclean⟩

/-- Bytes behind a hole whose last 48 look like a start in the middle of a line, and one byte
more. -/
def middleStart : List StreamChunk :=
  [{ flowId := 0, tsNs := 1, direction := .aToB, offset := 5
     data := List.replicate 10 97 ++ (ascii "GET / " ++ List.replicate 42 98) },
    { flowId := 0, tsNs := 2, direction := .aToB, offset := 63, data := [98] }]

theorem not_atBoundaries_middleStart :
    ¬AtBoundaries (runFrom (Watched.feed (searchWatch postConfig) postConfig) ⟨{}, {}⟩
      middleStart).ghost := by
  unfold AtBoundaries
  decide +kernel

end Boundary

section Missed

variable {v more : Bytes} {q k : ℕ}

/-- A start in a stream of which `v` has arrived and the first `q` bytes are gone: it is in the
bytes that are left, or too little of it is there. -/
theorem startsAt_drop (h : StartsAt (v ++ more) k) (hq : q = 0 ∨ q < k) :
    StartsAt (v.drop q) (k - q) ∨ v.length < k + 25 ∧ 10 ∉ v.drop k := by
  have hle : q ≤ k := by omega
  by_cases hstart : looksLikeHttpStart (v.drop k) = true
  · have hlt : k < v.length := by
      have hat : StartsAt (v.drop k) 0 := ⟨.inl rfl, hstart⟩
      have hpos := hat.lt
      rw [List.length_drop] at hpos
      omega
    refine .inl ⟨?_, ?_⟩
    · rcases hq with rfl | hq
      · rcases h.line with hzero | hline
        · exact .inl hzero
        · rw [List.getElem?_append_left (by omega)] at hline
          exact .inr hline
      · have hline := h.line.resolve_left (by omega)
        rw [List.getElem?_append_left (by omega)] at hline
        refine .inr ?_
        rw [List.getElem?_drop, show q + (k - q - 1) = k - 1 by omega]
        exact hline
    · rw [List.drop_drop, show q + (k - q) = k by omega]
      exact hstart
  · have hwhole := h.start
    rw [List.drop_append] at hwhole
    obtain ⟨hshort, hline⟩ := open_start hwhole (Bool.eq_false_of_not_eq_true hstart)
    rw [List.length_drop] at hshort
    exact .inr ⟨by omega, hline⟩

theorem find_drop_le (h : StartsAt (v ++ more) k) (hq : q = 0 ∨ q < k) {pos : ℕ}
    (hpos : findPlausibleHttpStart (v.drop q) = some pos) : q + pos ≤ k := by
  by_contra hgt
  obtain ⟨hat, hfirst⟩ := startsAt_of_find hpos
  rcases startsAt_drop h hq with hthere | ⟨-, hline⟩
  · exact hfirst (k - q) (by omega) hthere
  · -- a later start has a line feed before it, in the part that is still open
    have hfeed := hat.line.resolve_left (by omega)
    rw [List.getElem?_drop] at hfeed
    refine hline (List.mem_iff_getElem?.mpr ⟨q + (pos - 1) - k, ?_⟩)
    rw [List.getElem?_drop, show k + (q + (pos - 1) - k) = q + (pos - 1) by omega]
    exact hfeed

theorem length_lt_of_find_none (h : StartsAt (v ++ more) k) (hq : q = 0 ∨ q < k)
    (hnone : findPlausibleHttpStart (v.drop q) = none) : v.length < k + 25 := by
  rcases startsAt_drop h hq with hthere | ⟨hshort, -⟩
  · obtain ⟨pos, -, hsome⟩ := find_of_startsAt hthere
    rw [hnone] at hsome
    cases hsome
  · exact hshort

/-- A parser that lost the framing and expects the byte at `next`. -/
structure Desynced (p : HttpStreamParser) (next : ℕ) : Prop where
  synced : p.synced = false
  headers : p.state = .headers
  next : p.nextInputOffset = some next

/-- A parser has become synchronised, not after `place`. -/
def FoundBy (place : ℕ) (g : Search) : Prop :=
  ∃ e ∈ g.resyncs, e.parser.synced = true ∧ e.parser.streamOffset ≤ place

/-- Of the bytes `v` from `base` on, the parser has all from a place before `k` on, with the
byte before `k`. -/
structure Retains (base : ℕ) (v : Bytes) (k next : ℕ) (p : HttpStreamParser) : Prop where
  desynced : Desynced p next
  kept : ∃ q ≤ v.length, (q = 0 ∨ q < k) ∧ p.buffer = v.drop q ∧ p.streamOffset = base + q

variable {cfg : HttpConfig} {c : StreamChunk} {f : Feed} {g : Search} {base next place : ℕ}
  {p : HttpStreamParser}

theorem resyncs_round (cfg : HttpConfig) (c : StreamChunk) (f : Feed) (g : Search) :
    g.resyncs ⊆ ((searchWatch cfg).round c f g).resyncs := by
  simp only [searchWatch]
  split
  · unfold Search.headers
    split_ifs
    · rw [resyncs_header]
      exact List.Subset.refl _
    · rw [resyncs_header]
      exact List.subset_append_left _ _
    · rw [resyncs_trim]
      exact List.Subset.refl _
  · exact List.Subset.refl _

theorem FoundBy.round (h : FoundBy place g) (cfg : HttpConfig) (c : StreamChunk) (f : Feed) :
    FoundBy place ((searchWatch cfg).round c f g) := by
  obtain ⟨e, he, hle⟩ := h
  exact ⟨e, resyncs_round cfg c f g he, hle⟩

/-- Keeping the last bytes keeps a start that is still open, with the byte before it. -/
theorem Retains.trim (h : Retains base v k next p) (hshort : v.length < k + 25)
    (hfits : base + v.length ≤ u64Max) : Retains base v k next p.trimDesyncedSuffix := by
  obtain ⟨⟨hsynced, hstate, hnext⟩, q, hle, hq, hbuffer, hoffset⟩ := h
  unfold HttpStreamParser.trimDesyncedSuffix
  dsimp only
  have hlen : p.buffer.length = v.length - q := by rw [hbuffer, List.length_drop]
  split_ifs with hdrop
  · exact ⟨⟨hsynced, hstate, hnext⟩, q, hle, hq, hbuffer, hoffset⟩
  · simp only [httpResyncSuffix] at hdrop
    refine ⟨⟨hsynced, hstate, hnext⟩, q + (p.buffer.length - httpResyncSuffix), ?_, ?_, ?_, ?_⟩
    · simp only [httpResyncSuffix]
      omega
    · simp only [httpResyncSuffix]
      omega
    · rw [HttpStreamParser.advance, hbuffer, List.drop_drop]
    · simp only [HttpStreamParser.advance]
      rw [hoffset, satAdd_of_le (by omega)]
      omega

/-- One round of a parser that looks for a start. -/
theorem Retains.turn (h : Retains base v k next f.parser) (hstart : StartsAt (v ++ more) k)
    (hfits : base + v.length ≤ u64Max) (cfg : HttpConfig) (c : StreamChunk) (g : Search) :
    FoundBy (base + k) ((searchWatch cfg).round c f g) ∨
      v.length < k + 25 ∧ ∃ r, Feed.turn cfg c f = .stop r ∧ Retains base v k next r.parser := by
  obtain ⟨⟨hsynced, hstate, hnext⟩, q, hle, hq, hbuffer, hoffset⟩ := id h
  have hround : (searchWatch cfg).round c f g = g.headers c.direction cfg f.parser := by
    simp only [searchWatch, hstate]
  cases hfind : findPlausibleHttpStart f.parser.buffer with
  | some pos =>
      refine .inl ?_
      have hpos := hfind
      rw [hbuffer] at hpos
      have hbefore := find_drop_le hstart hq hpos
      have hinside := findPlausibleHttpStart_le hpos
      rw [List.length_drop] at hinside
      obtain ⟨hready, hsync, -, hplace⟩ := ready_of_find hsynced hfind
      have hplace' := hplace (by omega)
      rw [hround, Search.headers, if_neg (by simp [hsynced]), if_pos hready, FoundBy, resyncs_header]
      exact ⟨_, List.mem_append_right _ List.mem_cons_self, hsync, by dsimp only; omega⟩
  | none =>
      have hnone := hfind
      rw [hbuffer] at hnone
      have hshort := length_lt_of_find_none hstart hq hnone
      refine .inr ⟨hshort, { f with parser := f.parser.trimDesyncedSuffix }, ?_, ?_⟩
      · rw [Feed.turn, hstate]
        dsimp only
        rw [Feed.turnHeaders, ready_of_find_none hsynced hfind, if_pos rfl]
      · exact h.trim hshort hfits

/-- The rest of a call of a parser that looks for a start. -/
theorem watch_of_retains (hstart : StartsAt (v ++ more) k) (hfits : base + v.length ≤ u64Max)
    (h : FoundBy (base + k) g ∨ Retains base v k next f.parser) (cfg : HttpConfig)
    (c : StreamChunk) :
    FoundBy (base + k) (f.watch (searchWatch cfg) cfg c g).2 ∨ v.length < k + 25 ∧
      Retains base v k next (f.watch (searchWatch cfg) cfg c g).1.parser := by
  refine Leaves.ghost_rule
    (I := fun f g ↦ FoundBy (base + k) g ∨ Retains base v k next f.parser)
    (J := fun f g ↦ FoundBy (base + k) g ∨ v.length < k + 25 ∧ Retains base v k next f.parser)
    (leaves_watch c f g) (fun f g f' hI hturn ↦ ?_) (fun f g r hI hturn ↦ ?_) h
  · rcases hI with hfound | hretains
    · exact .inl (hfound.round cfg c f)
    · rcases hretains.turn hstart hfits cfg c g with hfound | ⟨-, r, hstop, -⟩
      · exact .inl hfound
      · cases hturn.symm.trans hstop
  · rcases hI with hfound | hretains
    · exact .inl (hfound.round cfg c f)
    · rcases hretains.turn hstart hfits cfg c g with hfound | ⟨hshort, r', hstop, hretains'⟩
      · exact .inl hfound
      · obtain rfl := Turn.stop.inj (hturn.symm.trans hstop)
        exact .inr ⟨hshort, hretains'⟩

/-- A call of a parser. -/
structure Call where
  chunk : StreamChunk
  pending : List RequestKind
  requestDirection : Option Direction

/-- The chunks of the calls join each other from `next` on. -/
def Contiguous : ℕ → List Call → Prop
  | _, [] => True
  | next, call :: calls => call.chunk.offset = next ∧
      Contiguous (satAdd next call.chunk.data.length) calls

def received (calls : List Call) : Bytes := calls.flatMap (·.chunk.data)

def searchCall (cfg : HttpConfig) (s : HttpStreamParser × Search) (call : Call) :
    HttpStreamParser × Search :=
  let out := s.1.watch (searchWatch cfg) cfg call.chunk call.pending call.requestDirection s.2
  (out.1.parser, out.2)

/-- The rest of a call after a round. -/
def restOfCall (cfg : HttpConfig) (c : StreamChunk) (g : Search) :
    Turn Feed → HttpStreamParser × Search
  | .again f => ((f.watch (searchWatch cfg) cfg c g).1.parser,
      (f.watch (searchWatch cfg) cfg c g).2)
  | .stop f => (f.parser, g)

theorem Retains.accept (h : Retains base v k next p) (hoffset : c.offset = next)
    (pending : List RequestKind) :
    Retains base (v ++ c.data) k (satAdd next c.data.length) (p.accept c pending).1 := by
  obtain ⟨⟨hsynced, hstate, hnext⟩, q, hle, hq, hbuffer, hstream⟩ := h
  subst hoffset
  have haccept : (p.accept c pending).1 = { p with
      nextInputOffset := some (satAdd c.offset c.data.length)
      buffer := p.buffer ++ c.data } := by
    simp [HttpStreamParser.accept, hnext]
  rw [haccept]
  refine ⟨⟨hsynced, hstate, rfl⟩, q, ?_, hq, ?_, hstream⟩
  · rw [List.length_append]
    omega
  · rw [hbuffer, List.drop_append_of_le_length hle]

theorem FoundBy.chunk (h : FoundBy place g) (cfg : HttpConfig) (p : HttpStreamParser)
    (c : StreamChunk) : FoundBy place ((searchWatch cfg).chunk p c g) := by
  obtain ⟨e, he, hle⟩ := h
  refine ⟨e, ?_, hle⟩
  simp only [searchWatch]
  split <;> exact he

/-- A call of a parser that looks for a start. -/
theorem searchCall_of_retains {s : HttpStreamParser × Search} {call : Call}
    (hoffset : call.chunk.offset = next)
    (hstart : StartsAt (v ++ call.chunk.data ++ more) k)
    (hfits : base + (v ++ call.chunk.data).length ≤ u64Max)
    (h : FoundBy (base + k) s.2 ∨ Retains base v k next s.1) (cfg : HttpConfig) :
    FoundBy (base + k) (searchCall cfg s call).2 ∨
      (v ++ call.chunk.data).length < k + 25 ∧
        Retains base (v ++ call.chunk.data) k (satAdd next call.chunk.data.length)
          (searchCall cfg s call).1 := by
  refine watch_of_retains hstart hfits ?_ cfg call.chunk
  rcases h with hfound | hretains
  · exact .inl (hfound.chunk cfg s.1 call.chunk)
  · exact .inr (hretains.accept hoffset call.pending)

/-- Calls of a parser that looks for a start.  With `searched` it has looked through its
buffer. -/
theorem searchCalls_of_retains (cfg : HttpConfig) (calls : List Call) :
    ∀ (s : HttpStreamParser × Search) (v : Bytes) (next : ℕ) (searched : Prop),
      Contiguous next calls → StartsAt (v ++ received calls ++ more) k →
      base + (v ++ received calls).length ≤ u64Max →
      (FoundBy (base + k) s.2 ∨ (searched → v.length < k + 25) ∧ Retains base v k next s.1) →
      (FoundBy (base + k) (runFrom (searchCall cfg) s calls).2 ∨
        (searched ∨ calls ≠ [] → (v ++ received calls).length < k + 25) ∧ ∃ next',
          Retains base (v ++ received calls) k next' (runFrom (searchCall cfg) s calls).1) := by
  induction calls with
  | nil =>
      intro s v next searched _ _ _ h
      rw [received, List.flatMap_nil, List.append_nil]
      rcases h with hfound | ⟨hshort, hretains⟩
      · exact .inl hfound
      · exact .inr ⟨fun hor ↦ hshort (hor.resolve_right fun hne ↦ hne rfl), next, hretains⟩
  | cons call calls ih =>
      intro s v next searched hcalls hstart hfits h
      have hjoin : v ++ received (call :: calls) =
          v ++ call.chunk.data ++ received calls := by
        rw [received, List.flatMap_cons, ← List.append_assoc, received]
      rw [hjoin] at hstart hfits ⊢
      have hone := searchCall_of_retains hcalls.1
        (by rwa [List.append_assoc _ (received calls)] at hstart)
        (by rw [List.length_append] at hfits; omega) (h.imp_right And.right) cfg
      rw [runFrom_cons]
      rcases ih (searchCall cfg s call) (v ++ call.chunk.data) _ True hcalls.2 hstart hfits
        (hone.imp_right fun hshort ↦ ⟨fun _ ↦ hshort.1, hshort.2⟩) with hfound | ⟨hshort, hretains⟩
      · exact .inl hfound
      · exact .inr ⟨fun _ ↦ hshort (.inl trivial), hretains⟩

/-- A round that loses the framing leaves a parser that looks for a start. -/
theorem desynced_turn (hsynced : f.parser.synced = true)
    (hnext : f.parser.nextInputOffset = some next)
    (hlost : (Feed.turn cfg c f).state.parser.synced = false) :
    Desynced (Feed.turn cfg c f).state.parser next := by
  refine ⟨hlost, ?_, by rw [next_turn, hnext]⟩
  by_cases hstate : f.parser.state = .headers
  · have hready : f.parser.ready = (f.parser, true) := by
      rw [HttpStreamParser.ready, if_pos hsynced]
    have hturn : Feed.turn cfg c f = Feed.turnHeaders cfg c f := by rw [Feed.turn, hstate]
    rw [hturn] at hlost ⊢
    unfold Feed.turnHeaders at hlost ⊢
    rw [hready] at hlost ⊢
    dsimp only at hlost ⊢
    rw [if_neg (Ne.symm Bool.false_ne_true)] at hlost ⊢
    cases hfind : findDoubleCrlfFrom f.parser.buffer f.parser.headerScanFrom with
    | none =>
        dsimp only
        split
        · exact HttpStreamParser.state_trimDesyncedSuffix.trans hstate
        · exact hstate
    | some finish =>
        rw [hfind] at hlost
        dsimp only at hlost ⊢
        cases hparse : cfg.parseHeader (f.parser.buffer.take (finish + 4)) with
        | none => exact hstate
        | some parsed =>
            rw [hparse] at hlost
            dsimp only at hlost ⊢
            unfold Feed.onHeader at hlost ⊢
            dsimp only at hlost ⊢
            split_ifs at hlost ⊢
            · rfl
            · split at hlost
              · cases hsynced.symm.trans hlost
              · rfl
  · exact (lost_body hstate hsynced (by simp [hnext])).headers hlost

/-- After `t` a parser has just lost the framing, and it expects the byte at `next`: a round has
lost it, or a chunk has come behind a gap, or the first chunk behind a hole. -/
inductive LosesSync (cfg : HttpConfig) (c : StreamChunk) : Turn Feed → ℕ → Prop where
  | round {f : Feed} {next : ℕ} (synced : f.parser.synced = true)
      (expects : f.parser.nextInputOffset = some next)
      (lost : (Feed.turn cfg c f).state.parser.synced = false) :
      LosesSync cfg c (Feed.turn cfg c f) next
  | gap {p : HttpStreamParser} {expected : ℕ} (expects : p.nextInputOffset = some expected)
      (gap : expected ≠ c.offset) (pending : List RequestKind)
      (requestDirection : Option Direction) :
      LosesSync cfg c (.again (p.begin c pending requestDirection)) (satAdd c.offset c.data.length)
  | hole (hole : c.offset ≠ 0) (pending : List RequestKind) (requestDirection : Option Direction) :
      LosesSync cfg c (.again (HttpStreamParser.begin {} c pending requestDirection))
        (satAdd c.offset c.data.length)

theorem LosesSync.desynced {t : Turn Feed} (h : LosesSync cfg c t next) :
    Desynced t.state.parser next := by
  cases h with
  | round synced expects lost => exact desynced_turn synced expects lost
  | @gap p expected expects gap pending requestDirection =>
      have haccept : (p.accept c pending).1 = { p with
          nextInputOffset := some (satAdd c.offset c.data.length), buffer := [] ++ c.data,
          state := .headers, streamOffset := c.offset, synced := false, headerScanFrom := 0 } := by
        simp [HttpStreamParser.accept, expects, gap]
      exact ⟨by rw [Turn.state, HttpStreamParser.begin, haccept],
        by rw [Turn.state, HttpStreamParser.begin, haccept],
        by rw [Turn.state, HttpStreamParser.begin, haccept]⟩
  | hole hole => exact ⟨decide_eq_false hole, rfl, rfl⟩

/-- Four bytes behind a hole, of which the last two are the first of a start. -/
def cutChunk : StreamChunk where
  flowId := 0
  tsNs := 1
  direction := .aToB
  offset := 5
  data := ascii "x\nGE"

def cutCall : Call where
  chunk := { flowId := 0, tsNs := 2, direction := .aToB, offset := 9
             data := ascii "T / HTTP/1.1\r\nHost: localhost\r\n" }
  pending := []
  requestDirection := none

end Missed

end Bazalt.Http
