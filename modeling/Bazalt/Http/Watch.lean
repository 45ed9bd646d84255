import Bazalt.Http.Wire

/-!
# Watching a connection

What a parser did on the way to a state is not in the state.  A ghost state beside the
connection notes it, chunk by chunk and round by round, and changes nothing.
-/

namespace Bazalt.Http

open Lib

/-- A round of the loop leaves the place of the next chunk. -/
theorem next_turn (cfg : HttpConfig) (c : StreamChunk) (f : Feed) :
    (Feed.turn cfg c f).state.parser.nextInputOffset = f.parser.nextInputOffset := by
  unfold Feed.turn
  split
  next =>
    obtain ⟨k, hready⟩ : ∃ k, HttpStreamParser.Passes f.parser f.parser.ready.1 k :=
      HttpStreamParser.passes_ready
    have hnext := hready.next
    unfold Feed.turnHeaders
    dsimp only
    by_cases hready : f.parser.ready.2 = false
    · rw [if_pos hready]
      exact hnext
    · rw [if_neg hready]
      split
      · split
        · unfold HttpStreamParser.trimDesyncedSuffix
          dsimp only
          split_ifs <;> exact hnext
        · exact hnext
      · split
        · exact hnext
        · unfold Feed.onHeader
          dsimp only
          split_ifs
          · exact hnext
          · split <;> exact hnext
  next =>
    unfold Feed.turnFixed
    dsimp only
    split_ifs <;> rfl
  next =>
    unfold Feed.turnSkipFixed
    dsimp only
    split_ifs <;> rfl
  next =>
    unfold Feed.turnChunked
    by_cases hempty : f.parser.buffer = []
    · rw [if_pos hempty]
      rfl
    · rw [if_neg hempty]
      dsimp only
      split
      · split
        · rfl
        · split <;> rfl
      · rfl
  next =>
    unfold Feed.turnUntilClose
    dsimp only
    split_ifs <;> rfl

/-- What a ghost state notes of a chunk that a parser gets, and of a round of its loop. -/
structure Watch (γ : Type*) where
  chunk : HttpStreamParser → StreamChunk → γ → γ
  round : StreamChunk → Feed → γ → γ

variable {γ : Type*} (W : Watch γ) (cfg : HttpConfig)

/-- A parser at the start of its loop. -/
def HttpStreamParser.begin (p : HttpStreamParser) (c : StreamChunk) (pending : List RequestKind)
    (requestDirection : Option Direction) : Feed where
  parser := (p.accept c pending).1
  pendingRequests := (p.accept c pending).2
  requestDirection := requestDirection

/-- The rest of a call from a state of its loop on. -/
def Feed.watch (c : StreamChunk) (f : Feed) (g : γ) : Feed × γ :=
  loop (ghostTurn (Feed.turn cfg c) (W.round c)) (f.measure + 1) (f, g)

def HttpStreamParser.watch (p : HttpStreamParser) (c : StreamChunk) (pending : List RequestKind)
    (requestDirection : Option Direction) (g : γ) : Feed × γ :=
  (p.begin c pending requestDirection).watch W cfg c (W.chunk p c g)

structure Watched (γ : Type*) where
  connection : HttpConnection
  ghost : γ

/-- The parser of a chunk after the chunk, with what was noted. -/
def Watched.next (s : Watched γ) (c : StreamChunk) : Feed × γ :=
  (s.connection.parser c.direction).watch W cfg c s.connection.pendingRequests
    s.connection.requestDirection s.ghost

def Watched.feed (s : Watched γ) (c : StreamChunk) : Watched γ :=
  if s.connection.mode = .tunnel then s
  else
    { connection := (s.connection.feed cfg c).1
      ghost := (s.next W cfg c).2 }

variable {W cfg} {c : StreamChunk} {s : Watched γ}

theorem leaves_watch (c : StreamChunk) (f : Feed) (g : γ) :
    Leaves (ghostTurn (Feed.turn cfg c) (W.round c)) (f, g) (f.watch W cfg c g) :=
  leaves_ghostTurn (fun _ _ ↦ Feed.measure_turn) (Nat.lt_succ_self _) g

theorem fst_watch (p : HttpStreamParser) (pending : List RequestKind)
    (requestDirection : Option Direction) (g : γ) :
    (p.watch W cfg c pending requestDirection g).1 = p.feed cfg c pending requestDirection :=
  loop_ghostTurn _ _ _

/-- A run that is watched is a run. -/
theorem connection_feed (s : Watched γ) (c : StreamChunk) :
    (s.feed W cfg c).connection = (s.connection.feed cfg c).1 := by
  unfold Watched.feed
  split_ifs with hmode
  · simp [HttpConnection.feed, hmode]
  · rfl

theorem connection_run (s : Watched γ) (cs : List StreamChunk) :
    (runFrom (Watched.feed W cfg) s cs).connection =
      runFrom (fun h c ↦ (HttpConnection.feed cfg h c).1) s.connection cs := by
  induction cs generalizing s with
  | nil => rfl
  | cons c cs ih => rw [runFrom_cons, runFrom_cons, ih, connection_feed]

theorem Watched.feed_of_tunnel (hmode : s.connection.mode = .tunnel) : s.feed W cfg c = s := by
  simp [Watched.feed, hmode]

/-- The call that a chunk is for. -/
theorem Watched.feed_of_http (W : Watch γ) (cfg : HttpConfig) (c : StreamChunk)
    (hmode : s.connection.mode = .http) :
    (s.feed W cfg c).ghost = (s.next W cfg c).2 ∧
      (s.feed W cfg c).connection.parser c.direction = (s.next W cfg c).1.parser ∧
      (s.feed W cfg c).connection.pendingRequests = (s.next W cfg c).1.pendingRequests ∧
      (s.feed W cfg c).connection.mode = (s.next W cfg c).1.mode ∧
      ∀ d ≠ c.direction, (s.feed W cfg c).connection.parser d = s.connection.parser d := by
  have hne : s.connection.mode ≠ .tunnel := by simp [hmode]
  simp only [Watched.feed, if_neg hne, HttpConnection.feed, Watched.next, fst_watch]
  refine ⟨trivial, HttpConnection.parser_setParser_self _ _ _, ?_,
    HttpConnection.mode_setParser _ _ _, fun d hd ↦ ?_⟩
  · cases c.direction <;> rfl
  · rw [HttpConnection.parser_setParser_of_ne _ _ hd]
    cases d <;> rfl

end Bazalt.Http
