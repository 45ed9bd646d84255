import Bazalt.Http.Segmentation
import Bazalt.Http.Watch

/-!
# Responses and their requests

The requests of a connection wait in a queue, and a response takes the oldest of them.  A log
beside the connection has every header block with the request kind by which it was framed and the
end of its message as the parser then looks for it, and every time that the queue was cleared.
-/

namespace Bazalt.Http

open Lib

/-! ## The end of a message -/

/-- Where a message ends. -/
inductive BodyEnd where
  /-- Not at all: what follows is no HTTP. -/
  | tunnel
  /-- With its header block. -/
  | header
  | length (n : ℕ)
  | chunked
  /-- With the stream. -/
  | close
  | unknown
  deriving DecidableEq, Repr

namespace BodyEnd

def ofLength (n : ℕ) : BodyEnd := if n = 0 then header else length n

/-- By the rules of HTTP: where a message with this header block ends, if it answers a request of
this kind. -/
def expected (parsed : ParsedHeader) (kind : Option RequestKind) : BodyEnd :=
  if parsed.request then
    if parsed.hasTransferEncoding then if parsed.transferFinalChunked then chunked else unknown
    else parsed.contentLength.elim header ofLength
  else if parsed.status = some 101 ∨ kind = some .connect ∧
      (parsed.status.any fun s ↦ decide (200 ≤ s ∧ s ≤ 299)) = true then tunnel
  else if kind = some .head ∨ (parsed.status.any fun s ↦
      decide (100 ≤ s ∧ s ≤ 199 ∨ s = 204 ∨ s = 205 ∨ s = 304)) = true then header
  else if parsed.hasTransferEncoding then if parsed.transferFinalChunked then chunked else close
  else parsed.contentLength.elim close ofLength

/-- The end that a parser looks for behind a header block. -/
def sought (f : Feed) : BodyEnd :=
  if f.mode = .tunnel then tunnel
  else if f.parser.synced = false then unknown
  else match f.parser.state with
    | .headers => header
    | .fixed remaining _ _ => length remaining
    | .skipFixed remaining _ _ => length remaining
    | .chunked _ _ _ _ _ => chunked
    | .untilClose _ _ _ _ => close

section

variable {cfg : HttpConfig} {c : StreamChunk} {f : Feed} {parsed : ParsedHeader}
  {kind : Option RequestKind} {info : MessageInfo}

theorem sought_of_synced (hmode : f.mode = .http) (hsynced : f.parser.synced = true) :
    sought f = match f.parser.state with
      | .headers => header
      | .fixed remaining _ _ => length remaining
      | .skipFixed remaining _ _ => length remaining
      | .chunked _ _ _ _ _ => chunked
      | .untilClose _ _ _ _ => close := by
  rw [sought, if_neg (by simp [hmode]), if_neg (by simp [hsynced])]

theorem sought_of_lost (hmode : f.mode = .http) (hlost : f.parser.synced = false) :
    sought f = unknown := by
  rw [sought, if_neg (by simp [hmode]), if_pos hlost]

theorem entersTunnel_iff (hresponse : parsed.request = false) :
    Feed.entersTunnel parsed kind = true ↔ parsed.status = some 101 ∨ kind = some .connect ∧
      (parsed.status.any fun s ↦ decide (200 ≤ s ∧ s ≤ 299)) = true := by
  simp only [Feed.entersTunnel, Feed.statusIn, hresponse, Bool.not_false, Bool.true_and,
    Bool.or_eq_true, Bool.and_eq_true, decide_eq_true_eq]
  exact or_comm

theorem hasNoBody_iff (hresponse : parsed.request = false) :
    Feed.hasNoBody parsed kind = true ↔ kind = some .head ∨ (parsed.status.any fun s ↦
      decide (100 ≤ s ∧ s ≤ 199 ∨ s = 204 ∨ s = 205 ∨ s = 304)) = true := by
  simp only [Feed.hasNoBody, Feed.statusIn, hresponse, Bool.not_false, Bool.true_and,
    Bool.or_eq_true, decide_eq_true_eq]
  rw [or_comm]
  refine or_congr_right ?_
  cases parsed.status with
  | none => simp
  | some s =>
      simp only [Option.any_some, decide_eq_true_eq]
      omega

/-- A body is looked for as the lengths in the header block say. -/
theorem sought_framing (hmode : f.mode = .http) (hsynced : f.parser.synced = true)
    (hbody : Feed.hasNoBody parsed kind = false) :
    ((Feed.framing cfg parsed kind info).elim unknown fun state ↦
      sought { f with parser.state := state }) =
      if parsed.hasTransferEncoding then
        if parsed.transferFinalChunked then chunked else if parsed.request then unknown else close
      else parsed.contentLength.elim (if parsed.request then header else close) ofLength := by
  have hstate (state : BodyState) := sought_of_synced (f := { f with parser.state := state })
    hmode hsynced
  unfold Feed.framing
  simp only [hbody, Bool.false_eq_true, false_or]
  cases parsed.hasTransferEncoding with
  | true =>
      cases parsed.transferFinalChunked <;> cases parsed.request <;> simp [hstate]
  | false =>
      cases parsed.contentLength with
      | none => cases parsed.request <;> simp [hstate]
      | some n =>
          simp only [reduceCtorEq, and_false, if_false, Option.elim_some, ofLength,
            Bool.false_eq_true]
          split_ifs <;> simp [hstate]

/-- Behind a header block the parser looks for the end that is expected by the kind of the
request that the queue has for it. -/
theorem sought_onHeader (hmode : f.mode = .http) (hsynced : f.parser.synced = true) (offset : ℕ)
    (block : Bytes) : sought (Feed.onHeader cfg c offset block parsed f).state =
      expected parsed (Feed.responseKind parsed f.pendingRequests) := by
  generalize hkind : Feed.responseKind parsed f.pendingRequests = kind
  have hgoes : sought (Feed.onHeader cfg c offset block parsed f).state =
      if Feed.entersTunnel parsed kind then tunnel
      else (Feed.framing cfg parsed kind
        (Feed.messageInfo c parsed (Feed.messageDirection c parsed f))).elim unknown fun state ↦
          sought { Feed.noteHeader c offset block parsed f with parser.state := state } := by
    unfold Feed.onHeader
    dsimp only
    rw [hkind]
    split_ifs with htunnel
    · rfl
    · cases Feed.framing cfg parsed kind
          (Feed.messageInfo c parsed (Feed.messageDirection c parsed f)) with
      | some state => rfl
      | none => exact sought_of_lost hmode rfl
  rw [hgoes, expected]
  cases hrequest : parsed.request with
  | true =>
      have htunnel : Feed.entersTunnel parsed kind = false := by simp [Feed.entersTunnel, hrequest]
      have hbody : Feed.hasNoBody parsed kind = false := by simp [Feed.hasNoBody, hrequest]
      rw [htunnel, if_neg Bool.false_ne_true,
        sought_framing (f := Feed.noteHeader c offset block parsed f) hmode hsynced hbody, hrequest]
      simp only [if_true]
  | false =>
      rw [if_neg Bool.false_ne_true]
      by_cases htunnel : Feed.entersTunnel parsed kind = true
      · rw [if_pos htunnel, if_pos ((entersTunnel_iff hrequest).mp htunnel)]
      · rw [if_neg htunnel, if_neg fun h ↦ htunnel ((entersTunnel_iff hrequest).mpr h)]
        cases hbody : Feed.hasNoBody parsed kind with
        | true =>
            rw [if_pos ((hasNoBody_iff hrequest).mp hbody), Feed.framing, if_pos (.inl hbody)]
            exact sought_of_synced (f := { Feed.noteHeader c offset block parsed f with
              parser.state := .headers }) hmode hsynced
        | false =>
            rw [if_neg fun h ↦ Bool.false_ne_true
                (hbody.symm.trans ((hasNoBody_iff hrequest).mpr h)),
              sought_framing (f := Feed.noteHeader c offset block parsed f) hmode hsynced hbody,
              hrequest]
            simp only [Bool.false_eq_true, if_false]

end

end BodyEnd

/-! ## The log -/

/-- What happens to the queue: a header block, with the kind of the request that it was framed
by and the end that is sought then, or the loss of everything that waits. -/
inductive Notice where
  | header (parsed : ParsedHeader) (kind : Option RequestKind) (sought : BodyEnd)
  | cleared
  deriving DecidableEq, Repr

namespace Notice

def apply (pending : List RequestKind) : Notice → List RequestKind
  | header parsed _ _ => (Feed.pair parsed pending).1
  | cleared => []

/-- The message is framed by a request of this kind: the end is sought that is expected then. -/
def FramedBy (kind : Option RequestKind) : Notice → Prop
  | header parsed kind' sought => kind' = kind ∧ sought = BodyEnd.expected parsed kind
  | cleared => False

instance (kind : Option RequestKind) : DecidablePred (FramedBy kind)
  | header parsed kind' sought =>
      inferInstanceAs (Decidable (kind' = kind ∧ sought = BodyEnd.expected parsed kind))
  | cleared => .isFalse id

/-- A header block is framed by the oldest request that waits. -/
def Sound (pending : List RequestKind) : Notice → Prop
  | header parsed kind sought =>
      (header parsed kind sought).FramedBy (Feed.responseKind parsed pending)
  | cleared => True

/-- No request is lost from the queue. -/
def Clean (pending : List RequestKind) : Notice → Prop
  | header parsed _ _ => (Feed.pair parsed pending).2 = false
  | cleared => False

/-- What is shown of a header block. -/
def shown? : Notice → Option (Bool × Option String × Option ℕ)
  | header parsed _ _ => some (parsed.request, parsed.method, parsed.status)
  | cleared => none

end Notice

/-- A property of every notice and of the queue before it. -/
def Along (P : List RequestKind → Notice → Prop) : List RequestKind → List Notice → Prop
  | _, [] => True
  | pending, n :: log => P pending n ∧ Along P (n.apply pending) log

def pendingAfter (pending : List RequestKind) (log : List Notice) : List RequestKind :=
  log.foldl Notice.apply pending

section Log

variable {P : List RequestKind → Notice → Prop} {pending : List RequestKind}
  {log before after : List Notice}

theorem pendingAfter_append (pending : List RequestKind) (log more : List Notice) :
    pendingAfter pending (log ++ more) = pendingAfter (pendingAfter pending log) more :=
  List.foldl_append

theorem along_append (pending : List RequestKind) (log more : List Notice) :
    Along P pending (log ++ more) ↔
      Along P pending log ∧ Along P (pendingAfter pending log) more := by
  induction log generalizing pending with
  | nil => exact ⟨fun h ↦ ⟨trivial, h⟩, fun h ↦ h.2⟩
  | cons n log ih => simp only [List.cons_append, Along, ih, and_assoc, pendingAfter, List.foldl_cons]

end Log

section Round

variable {cfg : HttpConfig} {c : StreamChunk} {f : Feed}

/-- What a round of a parser does to the queue.  The end that is sought is read off the parser
after the round. -/
def Feed.notices (cfg : HttpConfig) (c : StreamChunk) (f : Feed) : List Notice :=
  match f.parser.state with
  | .headers =>
      let p := f.parser.ready.1
      if f.parser.ready.2 = false then []
      else match findDoubleCrlfFrom p.buffer p.headerScanFrom with
        | none => if cfg.httpMaxHeaderBytes < p.buffer.length then [.cleared] else []
        | some finish =>
            match cfg.parseHeader (p.buffer.take (finish + 4)) with
            | none => [.cleared]
            | some parsed =>
                let kind := responseKind parsed f.pendingRequests
                let info := messageInfo c parsed (messageDirection c parsed f)
                .header parsed kind (BodyEnd.sought (turn cfg c f).state) ::
                  if entersTunnel parsed kind then []
                  else match framing cfg parsed kind info with
                    | some _ => []
                    | none => [.cleared]
  | .chunked _ decoder _ bodySeen captureBody =>
      if f.parser.buffer = [] then []
      else match (decoder.consume f.parser.buffer cfg.httpMaxHeaderBytes
          (collectRemaining cfg bodySeen captureBody)).result with
        | some _ => []
        | none => [.cleared]
  | _ => []

/-- The header blocks among the events. -/
def shownHeaders (events : List HttpEmission) : List (Bool × Option String × Option ℕ) :=
  events.filterMap fun e ↦ e.info.map fun record ↦ (record.request, record.method, record.status)

@[simp] theorem shownHeaders_append (es es' : List HttpEmission) :
    shownHeaders (es ++ es') = shownHeaders es ++ shownHeaders es' := List.filterMap_append

@[simp] theorem shownHeaders_nil : shownHeaders [] = [] := rfl

@[simp] theorem shownHeaders_contentEvent (info : MessageInfo) (record : HttpContent)
    (es : List HttpEmission) : shownHeaders (contentEvent info record :: es) = shownHeaders es :=
  rfl

@[simp] theorem shownHeaders_contentEvents (info : MessageInfo) (records : List HttpContent) :
    shownHeaders (records.map (contentEvent info)) = [] := by
  rw [shownHeaders, List.filterMap_map]
  exact List.filterMap_eq_nil_iff.mpr fun _ _ ↦ rfl

@[simp] theorem shownHeaders_chunkEvents (info : MessageInfo) (base : ℕ) (chunks : List ChunkData) :
    shownHeaders (Feed.chunkEvents info base chunks) = [] := by
  rw [Feed.chunkEvents, shownHeaders, List.filterMap_map]
  exact List.filterMap_eq_nil_iff.mpr fun _ _ ↦ rfl

theorem satAdd_eq_zero {n m : ℕ} (h : satAdd n m = 0) : n = 0 ∧ m = 0 := by
  unfold satAdd u64Max at h
  omega

/-- What a round does to the queue, to the events and to the count of errors, in terms of its
notices. -/
structure Noticed (f f' : Feed) (log : List Notice) : Prop where
  pending : f'.pendingRequests = pendingAfter f.pendingRequests log
  sound : Along Notice.Sound f.pendingRequests log
  shown : shownHeaders f'.report.events =
    shownHeaders f.report.events ++ log.filterMap Notice.shown?
  clean : f'.report.parseErrors = 0 →
    f.report.parseErrors = 0 ∧ Along Notice.Clean f.pendingRequests log

theorem noticed_same {f' : Feed} (hpending : f'.pendingRequests = f.pendingRequests)
    (hshown : shownHeaders f'.report.events = shownHeaders f.report.events)
    (herrors : f'.report.parseErrors = f.report.parseErrors) : Noticed f f' [] :=
  ⟨hpending, trivial, hshown.trans (List.append_nil _).symm, fun h ↦ ⟨herrors ▸ h, trivial⟩⟩

theorem noticed_desync {f' : Feed} (hpending : f'.pendingRequests = [])
    (hevents : f'.report.events = f.report.events)
    (herrors : f'.report.parseErrors = satAdd f.report.parseErrors 1) :
    Noticed f f' [.cleared] := by
  refine ⟨hpending, ⟨trivial, trivial⟩, ?_, fun h ↦ ?_⟩
  · rw [hevents]
    exact (List.append_nil _).symm
  · have hone := (satAdd_eq_zero (herrors ▸ h)).2
    cases hone

theorem noticed_note {offset : ℕ} {header : Bytes} {parsed : ParsedHeader} {f' : Feed}
    {sought : BodyEnd}
    (hsought : sought = BodyEnd.expected parsed (Feed.responseKind parsed f.pendingRequests))
    (hpending : f'.pendingRequests = (Feed.noteHeader c offset header parsed f).pendingRequests)
    (hreport : f'.report = (Feed.noteHeader c offset header parsed f).report) :
    Noticed f f' [.header parsed (Feed.responseKind parsed f.pendingRequests) sought] := by
  have herrors := congrArg HttpFeedReport.parseErrors hreport
  refine ⟨hpending, ⟨⟨rfl, hsought⟩, trivial⟩, ?_, fun h ↦ ?_⟩
  · rw [hreport]
    exact shownHeaders_append _ _
  · rw [herrors] at h
    simp only [Feed.noteHeader] at h
    cases hover : (Feed.pair parsed f.pendingRequests).2 with
    | true =>
        rw [hover, if_pos rfl] at h
        have hone := (satAdd_eq_zero h).2
        cases hone
    | false =>
        rw [hover, if_neg Bool.false_ne_true] at h
        refine ⟨?_, hover, trivial⟩
        split at h
        · exact (satAdd_eq_zero h).1
        · exact h

theorem Noticed.trans {f' f'' : Feed} {log more : List Notice} (h : Noticed f f' log)
    (h' : Noticed f' f'' more) : Noticed f f'' (log ++ more) := by
  refine ⟨?_, ?_, ?_, fun hzero ↦ ?_⟩
  · rw [pendingAfter_append, ← h.pending, h'.pending]
  · rw [along_append, ← h.pending]
    exact ⟨h.sound, h'.sound⟩
  · rw [h'.shown, h.shown, List.append_assoc, List.filterMap_append]
  · obtain ⟨hfirst, hmore⟩ := h'.clean hzero
    obtain ⟨hstart, hlog⟩ := h.clean hfirst
    rw [along_append, ← h.pending]
    exact ⟨hstart, hlog, hmore⟩

theorem noticed_onHeader {offset : ℕ} {block : Bytes} {parsed : ParsedHeader} {g : Feed}
    (hmode : g.mode = .http) (hsynced : g.parser.synced = true)
    (hpending : g.pendingRequests = f.pendingRequests)
    (hdirection : g.requestDirection = f.requestDirection) (hreport : g.report = f.report) :
    Noticed f (Feed.onHeader cfg c offset block parsed g).state
      (.header parsed (Feed.responseKind parsed f.pendingRequests)
          (BodyEnd.sought (Feed.onHeader cfg c offset block parsed g).state) ::
        if Feed.entersTunnel parsed (Feed.responseKind parsed f.pendingRequests) then []
        else match Feed.framing cfg parsed (Feed.responseKind parsed f.pendingRequests)
            (Feed.messageInfo c parsed (Feed.messageDirection c parsed f)) with
          | some _ => []
          | none => [.cleared]) := by
  have hinfo : Feed.messageDirection c parsed g = Feed.messageDirection c parsed f := by
    rw [Feed.messageDirection, Feed.messageDirection, hdirection]
  have hsought : BodyEnd.sought (Feed.onHeader cfg c offset block parsed g).state =
      BodyEnd.expected parsed (Feed.responseKind parsed g.pendingRequests) :=
    BodyEnd.sought_onHeader hmode hsynced offset block
  generalize BodyEnd.sought (Feed.onHeader cfg c offset block parsed g).state = sought at hsought ⊢
  have hnote {f' : Feed} (hsame : f'.pendingRequests =
        (Feed.noteHeader c offset block parsed g).pendingRequests)
      (hevents : f'.report = (Feed.noteHeader c offset block parsed g).report) :
      Noticed f f' [.header parsed (Feed.responseKind parsed f.pendingRequests) sought] := by
    have hnoted := noticed_note hsought hsame hevents
    rw [hpending] at hnoted
    exact ⟨by rw [hnoted.pending, hpending], hpending ▸ hnoted.sound, hreport ▸ hnoted.shown,
      fun h ↦ by
        rw [← hreport, ← hpending]
        exact hnoted.clean h⟩
  unfold Feed.onHeader
  dsimp only
  rw [hpending, hinfo]
  split
  · exact hnote rfl rfl
  · cases hframing : Feed.framing cfg parsed (Feed.responseKind parsed f.pendingRequests)
        (Feed.messageInfo c parsed (Feed.messageDirection c parsed f)) with
    | some state => exact hnote rfl rfl
    | none => exact (hnote rfl rfl).trans (noticed_desync rfl rfl rfl)

theorem noticed_turn (cfg : HttpConfig) (c : StreamChunk) {f : Feed} (hmode : f.mode = .http) :
    Noticed f (Feed.turn cfg c f).state (f.notices cfg c) := by
  unfold Feed.notices
  cases hstate : f.parser.state with
  | headers =>
      have hturn : Feed.turn cfg c f = Feed.turnHeaders cfg c f := by rw [Feed.turn, hstate]
      rw [hturn]
      unfold Feed.turnHeaders
      dsimp only
      by_cases hready : f.parser.ready.2 = false
      · rw [if_pos hready, if_pos hready]
        exact noticed_same rfl rfl rfl
      · have hsynced := HttpStreamParser.synced_ready (Bool.eq_true_of_not_eq_false hready)
        rw [if_neg hready, if_neg hready]
        cases hfind : findDoubleCrlfFrom f.parser.ready.1.buffer f.parser.ready.1.headerScanFrom with
        | none =>
            dsimp only
            split
            · exact noticed_desync rfl rfl rfl
            · exact noticed_same rfl rfl rfl
        | some finish =>
            dsimp only
            cases hparsed : cfg.parseHeader (f.parser.ready.1.buffer.take (finish + 4)) with
            | none => exact noticed_desync rfl rfl rfl
            | some parsed => exact noticed_onHeader hmode hsynced rfl rfl rfl
  | fixed remaining info compressed =>
      rw [Feed.turn, hstate]
      dsimp only
      unfold Feed.turnFixed
      dsimp only
      split_ifs <;> exact noticed_same rfl (by simp [Feed.emit, Turn.state]) rfl
  | skipFixed remaining captureRemaining info =>
      rw [Feed.turn, hstate]
      dsimp only
      unfold Feed.turnSkipFixed
      dsimp only
      split_ifs <;> exact noticed_same rfl (by simp [Feed.emit, Turn.state]) rfl
  | chunked info decoder compressed bodySeen captureBody =>
      rw [Feed.turn, hstate]
      dsimp only
      unfold Feed.turnChunked
      dsimp only
      by_cases hempty : f.parser.buffer = []
      · rw [if_pos hempty, if_pos hempty]
        exact noticed_same rfl rfl rfl
      · rw [if_neg hempty, if_neg hempty]
        cases hresult : (decoder.consume f.parser.buffer cfg.httpMaxHeaderBytes
            (Feed.collectRemaining cfg bodySeen captureBody)).result with
        | none => exact noticed_desync rfl rfl rfl
        | some result =>
            dsimp only
            split_ifs <;> exact noticed_same rfl (by simp [Feed.emit, Turn.state]) rfl
  | untilClose info compressed bodySeen captureBody =>
      rw [Feed.turn, hstate]
      dsimp only
      unfold Feed.turnUntilClose
      dsimp only
      split_ifs <;> exact noticed_same rfl (by simp [Feed.emit, Turn.state]) rfl

/-- A round after which the loop goes on leaves the mode. -/
theorem mode_turn {f' : Feed} (h : Feed.turn cfg c f = .again f') : f'.mode = f.mode := by
  unfold Feed.turn at h
  split at h
  · unfold Feed.turnHeaders at h
    dsimp only at h
    split at h
    · cases h
    · split at h
      · split at h <;> cases h
      · split at h
        · exact Turn.again.inj h ▸ rfl
        · unfold Feed.onHeader at h
          dsimp only at h
          split at h
          · cases h
          · split at h <;> exact Turn.again.inj h ▸ rfl
  · unfold Feed.turnFixed at h
    dsimp only at h
    split_ifs at h
    exact Turn.again.inj h ▸ rfl
  · unfold Feed.turnSkipFixed at h
    dsimp only at h
    split_ifs at h
    all_goals exact Turn.again.inj h ▸ rfl
  · unfold Feed.turnChunked at h
    dsimp only at h
    split at h
    · cases h
    · split at h
      · split_ifs at h
        all_goals exact Turn.again.inj h ▸ rfl
      · exact Turn.again.inj h ▸ rfl
  · unfold Feed.turnUntilClose at h
    split at h <;> cases h

end Round

section Run

variable {cfg : HttpConfig} {c : StreamChunk}

def pairingWatch (cfg : HttpConfig) : Watch (List Notice) where
  chunk p c log :=
    match p.nextInputOffset with
    | none => log
    | some expected => if expected ≠ c.offset then log ++ [.cleared] else log
  round c f log := log ++ f.notices cfg c

/-- Every header block and every loss of the queue in a whole session. -/
def pairingLog (cfg : HttpConfig) (cs : List StreamChunk) : List Notice :=
  (runFrom (Watched.feed (pairingWatch cfg) cfg) ⟨{}, []⟩ cs).ghost

/-- The log says what the queue is. -/
structure Watched.Logged (s : Watched (List Notice)) : Prop where
  pending : s.connection.pendingRequests = pendingAfter [] s.ghost
  sound : Along Notice.Sound [] s.ghost

theorem Watched.Logged.accept {s : Watched (List Notice)} (h : s.Logged) (cfg : HttpConfig)
    (c : StreamChunk) (p : HttpStreamParser) :
    (p.accept c s.connection.pendingRequests).2 =
        pendingAfter [] ((pairingWatch cfg).chunk p c s.ghost) ∧
      Along Notice.Sound [] ((pairingWatch cfg).chunk p c s.ghost) := by
  unfold HttpStreamParser.accept
  simp only [pairingWatch]
  cases p.nextInputOffset with
  | none => exact ⟨h.pending, h.sound⟩
  | some expected =>
      dsimp only
      split
      · rw [pendingAfter_append, along_append]
        exact ⟨rfl, h.sound, trivial, trivial⟩
      · exact ⟨h.pending, h.sound⟩

/-- In the middle of a call that began with the log `start`. -/
structure Logs (start : List Notice) (f : Feed) (log : List Notice) : Prop where
  pending : f.pendingRequests = pendingAfter [] log
  sound : Along Notice.Sound [] log
  shown : log.filterMap Notice.shown? =
    start.filterMap Notice.shown? ++ shownHeaders f.report.events
  clean : f.report.parseErrors = 0 → Along Notice.Clean [] start → Along Notice.Clean [] log

theorem Logs.turn {start log : List Notice} {f : Feed} (h : Logs start f log)
    (hmode : f.mode = .http) (cfg : HttpConfig) (c : StreamChunk) :
    Logs start (Feed.turn cfg c f).state ((pairingWatch cfg).round c f log) := by
  have hnoticed := noticed_turn cfg c hmode
  refine ⟨?_, ?_, ?_, fun hzero hclean ↦ ?_⟩
  · rw [hnoticed.pending, h.pending]
    exact (pendingAfter_append _ _ _).symm
  · refine (along_append _ _ _).mpr ⟨h.sound, ?_⟩
    rw [← h.pending]
    exact hnoticed.sound
  · rw [hnoticed.shown, ← List.append_assoc, ← h.shown]
    exact List.filterMap_append
  · obtain ⟨hbefore, hround⟩ := hnoticed.clean hzero
    refine (along_append _ _ _).mpr ⟨h.clean hbefore hclean, ?_⟩
    rwa [← h.pending]

theorem Watched.Logged.next {s : Watched (List Notice)} (h : s.Logged) (cfg : HttpConfig)
    (c : StreamChunk) :
    Logs ((pairingWatch cfg).chunk (s.connection.parser c.direction) c s.ghost)
      (s.next (pairingWatch cfg) cfg c).1 (s.next (pairingWatch cfg) cfg c).2 := by
  obtain ⟨hpending, hsound⟩ := h.accept cfg c (s.connection.parser c.direction)
  refine Leaves.ghost_rule (I := fun f log ↦ f.mode = .http ∧ Logs _ f log) (J := Logs _)
    (leaves_watch c _ ((pairingWatch cfg).chunk (s.connection.parser c.direction) c s.ghost))
    (fun f log f' hI hturn ↦ ?_) (fun f log r hI hturn ↦ ?_)
    ⟨rfl, hpending, hsound, (List.append_nil _).symm, fun _ hclean ↦ hclean⟩
  · have hnext := hI.2.turn hI.1 cfg c
    rw [hturn] at hnext
    exact ⟨(mode_turn hturn).trans hI.1, hnext⟩
  · have hnext := hI.2.turn hI.1 cfg c
    rwa [hturn] at hnext

theorem Watched.Logged.feed {s : Watched (List Notice)} (h : s.Logged) (cfg : HttpConfig)
    (c : StreamChunk) : (s.feed (pairingWatch cfg) cfg c).Logged := by
  cases hmode : s.connection.mode with
  | tunnel => rwa [Watched.feed_of_tunnel hmode]
  | http =>
      obtain ⟨hghost, -, hqueue, -, -⟩ := Watched.feed_of_http (pairingWatch cfg) cfg c hmode
      have hlogs := h.next cfg c
      refine ⟨?_, ?_⟩
      · rw [hqueue, hghost, hlogs.pending]
      · rw [hghost]
        exact hlogs.sound

theorem Watched.Logged.run {s : Watched (List Notice)} (h : s.Logged) (cfg : HttpConfig)
    (cs : List StreamChunk) : (runFrom (Watched.feed (pairingWatch cfg) cfg) s cs).Logged := by
  induction cs generalizing s with
  | nil => exact h
  | cons c cs ih => exact ih (h.feed cfg c)

/-- Every header block is framed by the oldest request that waits, and its end is sought so. -/
theorem sound_pairingLog (cfg : HttpConfig) (cs : List StreamChunk) :
    Along Notice.Sound [] (pairingLog cfg cs) := by
  have hstart : Watched.Logged ⟨{}, []⟩ := ⟨rfl, trivial⟩
  exact (hstart.run cfg cs).sound

/-- The chunks of each direction follow each other without a gap. -/
def Gapless : (Direction → Option ℕ) → List StreamChunk → Prop
  | _, [] => True
  | next, c :: cs => (∀ n ∈ next c.direction, n = c.offset) ∧
      c.offset + c.data.length ≤ u64Max ∧
      Gapless (Function.update next c.direction (some (c.offset + c.data.length))) cs

instance decidableGapless : ∀ next cs, Decidable (Gapless next cs)
  | _, [] => .isTrue trivial
  | next, c :: cs =>
      haveI := decidableGapless
        (Function.update next c.direction (some (c.offset + c.data.length))) cs
      inferInstanceAs (Decidable (_ ∧ _ ∧ _))

/-- A session without gaps, beside its log. -/
structure CleanRun (next : Direction → Option ℕ) (s : Watched (List Notice)) (t : Session) :
    Prop where
  connection : t.connection = s.connection
  logged : s.Logged
  next : s.connection.mode = .http → ∀ d, (s.connection.parser d).nextInputOffset = next d
  shown : shownHeaders t.report.events = s.ghost.filterMap Notice.shown?
  clean : t.report.parseErrors = 0 → Along Notice.Clean [] s.ghost

theorem next_feed (p : HttpStreamParser) (hbound : c.offset + c.data.length ≤ u64Max)
    (pending : List RequestKind) (requestDirection : Option Direction) :
    (p.feed cfg c pending requestDirection).parser.nextInputOffset =
      some (c.offset + c.data.length) := by
  have hleaves : Leaves (Feed.turn cfg c) (p.begin c pending requestDirection)
      (p.feed cfg c pending requestDirection) :=
    leaves_loop (fun _ _ ↦ Feed.measure_turn) (Nat.lt_succ_self _)
  refine hleaves.invariant (I := fun f ↦ f.parser.nextInputOffset = some (c.offset + c.data.length))
    (fun f hf ↦ (next_turn cfg c f).trans hf) ?_
  unfold HttpStreamParser.begin HttpStreamParser.accept
  dsimp only
  rw [satAdd_of_le hbound]
  split
  · split <;> rfl
  · rfl

theorem CleanRun.feed {next : Direction → Option ℕ} {s : Watched (List Notice)} {t : Session}
    (h : CleanRun next s t) (cfg : HttpConfig) (hnext : ∀ n ∈ next c.direction, n = c.offset)
    (hbound : c.offset + c.data.length ≤ u64Max) :
    CleanRun (Function.update next c.direction (some (c.offset + c.data.length)))
      (s.feed (pairingWatch cfg) cfg c) (t.feed cfg c) := by
  cases hmode : s.connection.mode with
  | tunnel =>
      have hno : s.connection.mode ≠ .http := by simp [hmode]
      rw [Watched.feed_of_tunnel hmode, Session.feed_of_tunnel (by rwa [h.connection])]
      exact ⟨h.connection, h.logged, fun hhttp ↦ absurd hhttp hno, h.shown, h.clean⟩
  | http =>
      obtain ⟨hghost, hparser, -, -, hothers⟩ :=
        Watched.feed_of_http (pairingWatch cfg) cfg c hmode
      obtain ⟨-, hevents, herrors, -⟩ := Session.feed_of_http cfg c (h.connection ▸ hmode)
      have hlogs := h.logged.next cfg c
      have hstart : (pairingWatch cfg).chunk (s.connection.parser c.direction) c s.ghost =
          s.ghost := by
        simp only [pairingWatch]
        rw [h.next hmode c.direction]
        cases hexpected : next c.direction with
        | none => rfl
        | some expected => exact if_neg (not_not_intro (hnext expected hexpected))
      rw [hstart] at hlogs
      have hsame : (s.next (pairingWatch cfg) cfg c).1 = (t.connection.parser c.direction).feed cfg c
          t.connection.pendingRequests t.connection.requestDirection := by
        rw [Watched.next, fst_watch, h.connection]
      refine ⟨?_, h.logged.feed cfg c, fun _ d ↦ ?_, ?_, fun hzero ↦ ?_⟩
      · rw [connection_feed, ← h.connection]
        rfl
      · by_cases hd : d = c.direction
        · subst hd
          rw [hparser, hsame, Function.update_self]
          exact next_feed _ hbound _ _
        · rw [hothers d hd, Function.update_of_ne hd]
          exact h.next hmode d
      · rw [hevents, hghost, hlogs.shown, shownHeaders_append, h.shown, hsame]
      · rw [herrors] at hzero
        rw [hghost]
        exact hlogs.clean (by rw [hsame]; omega) (h.clean (by omega))

theorem CleanRun.run {next : Direction → Option ℕ} {s : Watched (List Notice)} {t : Session}
    (h : CleanRun next s t) (cfg : HttpConfig) {cs : List StreamChunk} (hcs : Gapless next cs) :
    ∃ next', CleanRun next' (runFrom (Watched.feed (pairingWatch cfg) cfg) s cs)
      (runFrom (Session.feed cfg) t cs) := by
  induction cs generalizing next s t with
  | nil => exact ⟨next, h⟩
  | cons c cs ih => exact ih (h.feed cfg hcs.1 hcs.2.1) hcs.2.2

/-- Without a gap and without an error no request is lost from the queue, and the log has the
header blocks that are shown. -/
theorem clean_pairingLog (cfg : HttpConfig) (cs : List StreamChunk)
    (hcs : Gapless (fun _ ↦ none) cs)
    (herrors : (runFrom (Session.feed cfg) { connection := {} } cs).report.parseErrors = 0) :
    Along Notice.Clean [] (pairingLog cfg cs) ∧
      shownHeaders (runFrom (Session.feed cfg) { connection := {} } cs).report.events =
        (pairingLog cfg cs).filterMap Notice.shown? := by
  have hstart : CleanRun (fun _ ↦ none) ⟨{}, []⟩ { connection := {} } :=
    ⟨rfl, ⟨rfl, trivial⟩, fun _ d ↦ by cases d <;> rfl, rfl, fun _ ↦ trivial⟩
  obtain ⟨next, hrun⟩ := hstart.run cfg hcs
  exact ⟨hrun.clean herrors, hrun.shown⟩

end Run

section Order

variable {log : List Notice} {pending : List RequestKind} {n : Notice}

def Notice.request? : Notice → Option RequestKind
  | .header parsed _ _ => if parsed.request then some (.fromMethod parsed.method) else none
  | .cleared => none

def Notice.isResponse : Notice → Bool
  | .header parsed _ _ => !parsed.request
  | .cleared => false

/-- A response that answers its request: every one but the interim ones. -/
def Notice.isFinal : Notice → Bool
  | .header parsed _ _ => !parsed.request && !Feed.informational parsed
  | .cleared => false

/-- The requests in their order. -/
def requestKinds (log : List Notice) : List RequestKind := log.filterMap Notice.request?

def finals (log : List Notice) : ℕ := log.countP Notice.isFinal

/-- No response comes before the request that it answers or will answer. -/
def InOrder (log : List Notice) : Prop :=
  ∀ i (h : i < log.length), log[i].isResponse = true →
    finals (log.take i) < (requestKinds (log.take i)).length

instance (log : List Notice) : Decidable (InOrder log) :=
  inferInstanceAs (Decidable (∀ i (h : i < log.length), _))

theorem along_take {P : List RequestKind → Notice → Prop} (h : Along P pending log) {i : ℕ}
    (hi : i < log.length) : P (pendingAfter pending (log.take i)) log[i] := by
  rw [← List.take_append_drop i log, along_append, List.drop_eq_getElem_cons hi] at h
  exact h.2.1

/-- One notice moves the queue on. -/
theorem queue_next (hclean : n.Clean pending) {reqs : List RequestKind} {k : ℕ}
    (hpending : pending = reqs.drop k) (hle : k ≤ reqs.length)
    (horder : n.isResponse = true → k < reqs.length) :
    n.apply pending = (reqs ++ n.request?.toList).drop (k + if n.isFinal then 1 else 0) ∧
      (k + if n.isFinal then 1 else 0) ≤ (reqs ++ n.request?.toList).length := by
  cases n with
  | cleared => exact hclean.elim
  | header parsed kind sought =>
      cases hrequest : parsed.request with
      | true =>
          simp only [Notice.Clean, Notice.apply, Feed.pair, Notice.request?, Notice.isFinal,
            hrequest, if_true] at hclean ⊢
          split at hclean
          · cases hclean
          next hroom =>
            rw [if_neg hroom, hpending]
            simp only [Bool.not_true, Bool.false_and, Bool.false_eq_true, if_false, Nat.add_zero,
              Option.toList_some, List.drop_append_of_le_length hle, List.length_append]
            exact ⟨trivial, by omega⟩
      | false =>
          have hlt := horder (by simp [Notice.isResponse, hrequest])
          simp only [Notice.apply, Feed.pair, Notice.request?, Notice.isFinal, hrequest,
            Bool.false_eq_true, if_false, Bool.not_false, Bool.true_and, Option.toList_none,
            List.append_nil]
          cases hinterim : Feed.informational parsed with
          | true => exact ⟨hpending, hle⟩
          | false =>
              simp only [Bool.false_eq_true, if_false, Bool.not_false, if_true, hpending,
                List.drop_drop]
              exact ⟨trivial, hlt⟩

/-- The queue is the requests that are not answered. -/
theorem queue_eq_drop (hclean : Along Notice.Clean [] log) (horder : InOrder log) {i : ℕ}
    (hi : i ≤ log.length) : pendingAfter [] (log.take i) =
        (requestKinds (log.take i)).drop (finals (log.take i)) ∧
      finals (log.take i) ≤ (requestKinds (log.take i)).length := by
  induction i with
  | zero => exact ⟨rfl, le_rfl⟩
  | succ i ih =>
      have hlt : i < log.length := hi
      obtain ⟨hqueue, hle⟩ := ih hlt.le
      obtain ⟨hnext, hmore⟩ := queue_next (along_take hclean hlt) hqueue hle (horder i hlt)
      have hsnoc : log.take (i + 1) = log.take i ++ [log[i]] := List.take_succ_eq_append_getElem hlt
      have hkinds : requestKinds (log.take (i + 1)) =
          requestKinds (log.take i) ++ log[i].request?.toList := by
        rw [hsnoc, requestKinds, List.filterMap_append, requestKinds]
        cases hrequest : log[i].request? <;> simp [hrequest]
      have hfinals : finals (log.take (i + 1)) =
          finals (log.take i) + if log[i].isFinal then 1 else 0 := by
        rw [hsnoc, finals, List.countP_append, List.countP_singleton, finals]
      rw [hkinds, hfinals, hsnoc, pendingAfter_append]
      exact ⟨hnext, hmore⟩

/-- In a session without gaps and errors the log has the header blocks that are shown, and the
`k`-th final response is framed by the kind of the `k`-th request, an interim response by that of
the request whose final response is next: behind its header block the parser looks for the end
that is expected by this kind. -/
theorem paired_of_gapless (cfg : HttpConfig) (cs : List StreamChunk)
    (hcs : Gapless (fun _ ↦ none) cs)
    (herrors : (runFrom (Session.feed cfg) { connection := {} } cs).report.parseErrors = 0)
    (horder : InOrder (pairingLog cfg cs)) :
    shownHeaders (runFrom (Session.feed cfg) { connection := {} } cs).report.events =
        (pairingLog cfg cs).filterMap Notice.shown? ∧
      ∀ i parsed kind sought, (pairingLog cfg cs)[i]? = some (.header parsed kind sought) →
        parsed.request = false → ∃ answered,
          (Notice.header parsed kind sought).FramedBy (some answered) ∧
          (requestKinds (pairingLog cfg cs))[finals ((pairingLog cfg cs).take i)]? =
            some answered := by
  obtain ⟨hclean, hshown⟩ := clean_pairingLog cfg cs hcs herrors
  refine ⟨hshown, ?_⟩
  intro i parsed kind sought hi hresponse
  have hsound := sound_pairingLog cfg cs
  clear hshown
  revert hi hclean hsound horder
  generalize pairingLog cfg cs = log
  intro horder hclean hi hsound
  obtain ⟨hlt, hnotice⟩ := List.getElem?_eq_some_iff.mp hi
  obtain ⟨hqueue, -⟩ := queue_eq_drop hclean horder hlt.le
  have hwaits := horder i hlt (by simp [hnotice, Notice.isResponse, hresponse])
  have hframed : (Notice.header parsed kind sought).FramedBy
      (Feed.responseKind parsed (pendingAfter [] (log.take i))) := by
    have hrecorded := along_take hsound hlt
    rwa [hnotice] at hrecorded
  have hpre : requestKinds (log.take i) <+: requestKinds log :=
    (List.take_prefix i log).filterMap _
  rw [Feed.responseKind, hresponse, if_neg Bool.false_ne_true, hqueue, List.head?_drop,
    List.getElem?_eq_getElem hwaits] at hframed
  exact ⟨_, hframed, List.prefix_iff_getElem?.mp hpre _ hwaits⟩

def getHeader : Bytes := ascii "GET / HTTP/1.1\r\n\r\n"

def headHeader : Bytes := ascii "HEAD / HTTP/1.1\r\n\r\n"

def continueHeader : Bytes := ascii "HTTP/1.1 100 Continue\r\n\r\n"

def okHeader : Bytes := ascii "HTTP/1.1 200 OK\r\nContent-Length: 2\r\n\r\n"

def pairConfig : HttpConfig where
  httpMaxHeaderBytes := 131072
  httpMaxBodyBytes := 67108864
  httpMaxDecodeBytes := 16777216
  httpMaxDecodeRatio := 32
  parseHeader header :=
    if header = getHeader then some { request := true, method := some "GET", path := some "/" }
    else if header = headHeader then
      some { request := true, method := some "HEAD", path := some "/" }
    else if header = continueHeader then some { request := false, status := some 100 }
    else if header = okHeader then
      some { request := false, status := some 200, contentLength := some 2 }
    else none
  inflate _ _ := none

/-- Two requests that do not wait for each other, and their responses. -/
def pipelined : List StreamChunk :=
  [{ flowId := 0, tsNs := 1, direction := .aToB, offset := 0, data := getHeader ++ headHeader },
    { flowId := 0, tsNs := 2, direction := .bToA, offset := 0
      data := continueHeader ++ okHeader ++ ascii "ok" ++ okHeader }]

def okParsed : ParsedHeader := { request := false, status := some 200, contentLength := some 2 }

theorem paired_pipelined :
    (pairingLog pairConfig pipelined)[4]? = some (.header okParsed (some .head) .header) ∧
      (requestKinds (pairingLog pairConfig pipelined))[
        finals ((pairingLog pairConfig pipelined).take 4)]? = some .head := by
  have hfour : (pairingLog pairConfig pipelined)[4]? =
      some (.header okParsed (some .head) .header) := by
    decide +kernel
  obtain ⟨answered, ⟨hanswered, -⟩, hpaired⟩ := (paired_of_gapless pairConfig pipelined
    (by decide +kernel) (by decide +kernel) (by decide +kernel)).2 4 okParsed (some .head) .header
    hfour rfl
  obtain rfl := Option.some.inj hanswered
  exact ⟨hfour, hpaired⟩

end Order

section Stretches

variable {log : List (Notice × ℕ)} {pending : List RequestKind} {kindOf : ℕ → RequestKind}

def Notice.kind? : Notice → Option RequestKind
  | .header _ kind _ => kind
  | .cleared => none

/-- The notices have the numbers of the requests that they are, or that they answer: the
`a`-th request of the connection has the kind `kindOf a`. -/
def Numbered (kindOf : ℕ → RequestKind) (log : List (Notice × ℕ)) : Prop :=
  ∀ q ∈ log, ∀ kind ∈ q.1.request?, kind = kindOf q.2

instance (log : List (Notice × ℕ)) : Decidable (Numbered kindOf log) :=
  inferInstanceAs (Decidable (∀ q ∈ log, ∀ kind ∈ q.1.request?, _))

/-- Every final response is framed without a request, or by the one that it answers. -/
def FramedByAnswered (kindOf : ℕ → RequestKind) (log : List (Notice × ℕ)) : Prop :=
  ∀ q ∈ log, q.1.isFinal = true → q.1.FramedBy none ∨ q.1.FramedBy (some (kindOf q.2))

instance (log : List (Notice × ℕ)) : Decidable (FramedByAnswered kindOf log) :=
  inferInstanceAs (Decidable (∀ q ∈ log, _))

/-- The requests that were read since the last loss and are not answered, as the first and the
end of their numbers. -/
abbrev Stretch := Option (ℕ × ℕ)

/-- Since each loss of the queue the requests that are read have numbers without a hole, and
from the first of them on the final responses answer them one after the other. -/
def AnswersInStretches : Stretch → List (Notice × ℕ) → Prop
  | _, [] => True
  | _, (.cleared, _) :: log => AnswersInStretches none log
  | w, (.header parsed _ _, a) :: log =>
      if parsed.request then
        match w with
        | none => AnswersInStretches (some (a, a + 1)) log
        | some (first, next) => a = next ∧ next - first < httpPendingRequestLimit ∧
            AnswersInStretches (some (first, next + 1)) log
      else if Feed.informational parsed then AnswersInStretches w log
      else
        match w with
        | none => AnswersInStretches none log
        | some (first, next) => a = first ∧ first < next ∧
            AnswersInStretches (some (first + 1, next)) log

instance decidableAnswersInStretches : ∀ w log, Decidable (AnswersInStretches w log)
  | _, [] => .isTrue trivial
  | _, (.cleared, _) :: log => decidableAnswersInStretches none log
  | none, (.header parsed _ _, a) :: log =>
      haveI := decidableAnswersInStretches (some (a, a + 1)) log
      haveI := decidableAnswersInStretches none log
      inferInstanceAs (Decidable (if parsed.request then AnswersInStretches (some (a, a + 1)) log
        else if Feed.informational parsed then AnswersInStretches none log
        else AnswersInStretches none log))
  | some (first, next), (.header parsed _ _, a) :: log =>
      haveI := decidableAnswersInStretches (some (first, next + 1)) log
      haveI := decidableAnswersInStretches (some (first, next)) log
      haveI := decidableAnswersInStretches (some (first + 1, next)) log
      inferInstanceAs (Decidable (if parsed.request then a = next ∧
          next - first < httpPendingRequestLimit ∧ AnswersInStretches (some (first, next + 1)) log
        else if Feed.informational parsed then AnswersInStretches (some (first, next)) log
        else a = first ∧ first < next ∧ AnswersInStretches (some (first + 1, next)) log))

/-- The queue is what the stretch says. -/
def Stretch.Queue (kindOf : ℕ → RequestKind) (pending : List RequestKind) : Stretch → Prop
  | none => pending = []
  | some (first, next) => first ≤ next ∧
      pending = (List.range' first (next - first)).map kindOf

/-- A request joins the queue behind the others of its stretch. -/
theorem Stretch.Queue.request {first next : ℕ} {parsed : ParsedHeader}
    (h : Stretch.Queue kindOf pending (some (first, next))) (hrequest : parsed.request = true)
    (hkind : .fromMethod parsed.method = kindOf next)
    (hroom : next - first < httpPendingRequestLimit) :
    Stretch.Queue kindOf (Feed.pair parsed pending).1 (some (first, next + 1)) := by
  obtain ⟨hle, rfl⟩ := h
  have hlen : ¬httpPendingRequestLimit ≤
      ((List.range' first (next - first)).map kindOf).length := by
    rw [List.length_map, List.length_range']
    omega
  have hcount : next + 1 - first = next - first + 1 := by omega
  have hlast : first + (next - first) = next := by omega
  refine ⟨by omega, ?_⟩
  rw [Feed.pair, if_pos hrequest, if_neg hlen, hcount, List.range'_1_concat, List.map_append, hlast,
    hkind]
  rfl

/-- A final response takes the first request of its stretch. -/
theorem Stretch.Queue.response {first next : ℕ}
    (h : Stretch.Queue kindOf pending (some (first, next))) (hlt : first < next) :
    pending.head? = some (kindOf first) ∧
      Stretch.Queue kindOf (pending.drop 1) (some (first + 1, next)) := by
  obtain ⟨-, rfl⟩ := h
  obtain ⟨m, hm⟩ : ∃ m, next - first = m + 1 := ⟨next - first - 1, by omega⟩
  have hrest : next - (first + 1) = m := by omega
  rw [hm, List.range'_succ]
  refine ⟨rfl, by omega, ?_⟩
  rw [hrest]
  rfl

theorem framedByAnswered_of_stretches {w : Stretch} (hqueue : w.Queue kindOf pending)
    (hsound : Along Notice.Sound pending (log.map Prod.fst)) (hnumbered : Numbered kindOf log)
    (h : AnswersInStretches w log) : FramedByAnswered kindOf log := by
  induction log generalizing w pending with
  | nil => simp [FramedByAnswered]
  | cons q log ih =>
      obtain ⟨n, a⟩ := q
      obtain ⟨hrecorded, hrest⟩ := hsound
      have hlater : Numbered kindOf log := fun q hq ↦ hnumbered q (List.mem_cons_of_mem _ hq)
      refine List.forall_mem_cons.mpr ?_
      cases n with
      | cleared =>
          have hempty : Stretch.Queue kindOf [] none := rfl
          exact ⟨fun hfinal ↦ (by cases hfinal), ih hempty hrest hlater h⟩
      | header parsed kind sought =>
          have hframed : (Notice.header parsed kind sought).FramedBy
              (Feed.responseKind parsed pending) := hrecorded
          simp only [AnswersInStretches] at h
          cases hrequest : parsed.request with
          | true =>
              have hkind : RequestKind.fromMethod parsed.method = kindOf a :=
                hnumbered _ List.mem_cons_self _ (by simp [Notice.request?, hrequest])
              rw [if_pos hrequest] at h
              refine ⟨fun hfinal ↦ ?_, ?_⟩
              · simp [Notice.isFinal, hrequest] at hfinal
              · cases w with
                | none =>
                    have hempty : pending = [] := hqueue
                    have hstart : Stretch.Queue kindOf pending (some (a, a)) := by
                      refine ⟨le_rfl, ?_⟩
                      rw [Nat.sub_self, hempty]
                      rfl
                    exact ih (hstart.request hrequest hkind (by simp [httpPendingRequestLimit]))
                      hrest hlater h
                | some ends =>
                    obtain ⟨rfl, hroom, hnext⟩ := h
                    exact ih (hqueue.request hrequest hkind hroom) hrest hlater hnext
          | false =>
              have hresponse : ¬parsed.request = true := by simp [hrequest]
              rw [if_neg hresponse] at h
              rw [Feed.responseKind, if_neg hresponse] at hframed
              rw [Notice.apply, Feed.pair, if_neg hresponse] at hrest
              cases hinterim : Feed.informational parsed with
              | true =>
                  rw [if_pos hinterim] at h hrest
                  refine ⟨fun hfinal ↦ ?_, ih hqueue hrest hlater h⟩
                  simp [Notice.isFinal, hinterim] at hfinal
              | false =>
                  rw [hinterim, if_neg Bool.false_ne_true] at h hrest
                  cases w with
                  | none =>
                      have hempty : pending = [] := hqueue
                      rw [hempty] at hframed hrest
                      have hstill : Stretch.Queue kindOf [] none := rfl
                      exact ⟨fun _ ↦ .inl hframed, ih hstill hrest hlater h⟩
                  | some ends =>
                      obtain ⟨rfl, hlt, hnext⟩ := h
                      obtain ⟨hhead, hdrop⟩ := hqueue.response hlt
                      rw [hhead] at hframed
                      exact ⟨fun _ ↦ .inr hframed, ih hdrop hrest hlater hnext⟩

/-- In every session whose responses answer in stretches, no final response is framed by the
request of another one. -/
theorem framedByAnswered_of_answers (cfg : HttpConfig) (cs : List StreamChunk)
    (kindOf : ℕ → RequestKind) (numbers : List ℕ)
    (hlength : numbers.length = (pairingLog cfg cs).length)
    (hnumbered : Numbered kindOf ((pairingLog cfg cs).zip numbers))
    (hanswers : AnswersInStretches none ((pairingLog cfg cs).zip numbers)) :
    FramedByAnswered kindOf ((pairingLog cfg cs).zip numbers) := by
  have hempty : Stretch.Queue kindOf [] none := rfl
  refine framedByAnswered_of_stretches hempty ?_ hnumbered hanswers
  rw [List.map_fst_zip hlength.ge]
  exact sound_pairingLog cfg cs

/-- A request, the bytes `late` of the other direction, a gap, and a request with its
response. -/
def gapBetween (late : Bytes) : List StreamChunk :=
  [{ flowId := 0, tsNs := 1, direction := .aToB, offset := 0, data := getHeader },
    { flowId := 0, tsNs := 2, direction := .bToA, offset := 0, data := late },
    { flowId := 0, tsNs := 3, direction := .aToB, offset := 100, data := headHeader },
    { flowId := 0, tsNs := 4, direction := .bToA, offset := late.length, data := okHeader }]

/-- The first request is a `GET` and the second one a `HEAD`. -/
def getThenHead (a : ℕ) : RequestKind := if a = 1 then .head else .other

/-- The response to the `GET` comes before the gap. -/
theorem framed_gapBetween : (pairingLog pairConfig (gapBetween (okHeader ++ ascii "ok"))).map
      Notice.kind? = [none, some .other, none, none, some .head] ∧
    FramedByAnswered getThenHead
      ((pairingLog pairConfig (gapBetween (okHeader ++ ascii "ok"))).zip [0, 0, 0, 1, 1]) :=
  ⟨by decide +kernel, framedByAnswered_of_answers pairConfig _ getThenHead [0, 0, 0, 1, 1]
    (by decide +kernel) (by decide +kernel) (by decide +kernel)⟩

/-- The response to the `GET` comes behind the `HEAD`, and is framed without a body. -/
theorem not_framed_gapBetween :
    Numbered getThenHead ((pairingLog pairConfig (gapBetween [])).zip [0, 0, 1, 0]) ∧
    ¬FramedByAnswered getThenHead
      ((pairingLog pairConfig (gapBetween [])).zip [0, 0, 1, 0]) := by
  decide +kernel

end Stretches

end Bazalt.Http
