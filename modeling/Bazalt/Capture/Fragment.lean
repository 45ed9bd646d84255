import Bazalt.Lib.OrdMap
import Bazalt.Model

/-!
# IP fragments

Fragments of a datagram are kept until all of them are there.  A datagram with fragments
that overlap is dropped.  The cache is bounded: its oldest datagrams are evicted, and those
that are not completed in time expire.
-/

namespace Bazalt.Capture

open Lib

inductive IpAddr where
  | v4 (octets : BitVec 32)
  | v6 (octets : BitVec 128)
  deriving DecidableEq, Repr

structure FragmentKey where
  version : UInt8
  l2Domain : UInt64
  src : IpAddr
  dst : IpAddr
  id : BitVec 32
  nextHeader : UInt8
  deriving DecidableEq, Repr

structure FragmentPiece where
  data : Bytes
  more : Bool
  deriving DecidableEq, Repr

def fragmentDatagramOverhead : ℕ := 256

def fragmentPieceOverhead : ℕ := 64

structure FragmentState where
  pieces : OrdMap ℕ FragmentPiece := .empty
  bytes : ℕ := fragmentDatagramOverhead
  totalLen : Option ℕ := none
  lastSeen : ℕ
  wireBytes : ℕ := 0

inductive FragmentInsert where
  | pending
  | complete (payload : Bytes) (wireBytes : ℕ)
  | droppedOverlap
  | droppedInvalid
  deriving DecidableEq, Repr

/-- One shard.  Times are in nanoseconds. -/
structure FragmentCache where
  states : List (FragmentKey × FragmentState) := []
  bytes : ℕ := 0
  maxBytes : ℕ
  maxDatagrams : ℕ
  timeout : ℕ
  lastCleanup : ℕ

/-- What the upkeep of the cache removed. -/
structure FragmentMaintenance where
  expired : ℕ := 0
  evicted : ℕ := 0
  deriving DecidableEq, Repr

namespace FragmentState

/-- Why a fragment is refused.  An exact duplicate is not, but it adds nothing. -/
inductive Verdict where
  | invalid
  | overlap
  | duplicate
  | new
  deriving DecidableEq, Repr

/-- The length that a final fragment declares. -/
def declare (s : FragmentState) (more : Bool) (finish : ℕ) : Option FragmentState :=
  if more then some s
  else if ∃ existing ∈ s.totalLen, existing ≠ finish then none
  else if ∃ e ∈ s.pieces.entries, finish < satAdd e.1 e.2.data.length then none
  else some { s with totalLen := some finish }

def judge (s : FragmentState) (offset finish : ℕ) (more : Bool) (payload : Bytes) : Verdict :=
  if ∃ total ∈ s.totalLen, total < finish ∨ more = true ∧ total ≤ finish then .invalid
  else match s.pieces.entries.find? fun e ↦ decide (e.1 = offset) with
    | some (_, existing) =>
        if existing.more = more ∧ existing.data = payload then .duplicate else .overlap
    | none =>
        let previous := (s.pieces.entries.filter fun e ↦ decide (e.1 < offset)).getLast?
        let following := s.pieces.entries.find? fun e ↦ decide (offset ≤ e.1)
        if previous.any fun e ↦ decide (offset < satAdd e.1 e.2.data.length) then .overlap
        else if following.any fun e ↦ decide (e.1 < finish) then .overlap
        else .new

def add (s : FragmentState) (offset : ℕ) (more : Bool) (payload : Bytes) (wireLen : ℕ) :
    FragmentState :=
  { s with
    bytes := satAdd s.bytes (satAdd payload.length fragmentPieceOverhead)
    wireBytes := satAdd s.wireBytes wireLen
    pieces := s.pieces.insert offset ⟨payload, more⟩ }

/-- The position after the pieces that follow each other from the start. -/
def cursorFrom : ℕ → List (ℕ × FragmentPiece) → Option ℕ
  | cursor, [] => some cursor
  | cursor, (start, piece) :: pieces =>
      if start = cursor then cursorFrom (satAdd cursor piece.data.length) pieces else none

def complete? (s : FragmentState) : Option Bytes :=
  if s.totalLen.isSome ∧ cursorFrom 0 s.pieces.entries = s.totalLen then
    some (s.pieces.entries.flatMap fun e ↦ e.2.data)
  else none

end FragmentState

namespace FragmentCache

def new (maxBytes maxDatagrams timeout now : ℕ) : FragmentCache where
  maxBytes := max maxBytes 65536
  maxDatagrams := max maxDatagrams 1
  timeout := timeout
  lastCleanup := now

def state? (c : FragmentCache) (key : FragmentKey) : Option FragmentState :=
  (c.states.find? fun e ↦ decide (e.1 = key)).map Prod.snd

def removeKey (c : FragmentCache) (key : FragmentKey) : FragmentCache :=
  match c.state? key with
  | none => c
  | some state => { c with
      states := c.states.filter fun e ↦ decide (e.1 ≠ key)
      bytes := c.bytes - state.bytes }

def setState (c : FragmentCache) (key : FragmentKey) (state : FragmentState) : FragmentCache :=
  { c with states := c.states.map fun e ↦ if e.1 = key then (key, state) else e }

/-- Once a second, datagrams that were not seen for the timeout are removed. -/
def maintenance (c : FragmentCache) (now : ℕ) : FragmentCache × FragmentMaintenance :=
  if now - c.lastCleanup < 1000000000 then (c, {})
  else
    let expired := (c.states.filter fun e ↦ decide (c.timeout ≤ now - e.2.lastSeen)).map Prod.fst
    (expired.foldl removeKey { c with lastCleanup := now }, { expired := expired.length })

/-- The first of the datagrams that were seen least recently. -/
def oldest? (c : FragmentCache) : Option FragmentKey :=
  (c.states.foldl (fun best e ↦ match best with
    | none => some e
    | some b => if e.2.lastSeen < b.2.lastSeen then some e else some b) none).map Prod.fst

/-- One round of the search for the oldest datagram. -/
def older (best : Option (FragmentKey × FragmentState)) (e : FragmentKey × FragmentState) :
    Option (FragmentKey × FragmentState) :=
  match best with
  | none => some e
  | some b => if e.2.lastSeen < b.2.lastSeen then some e else some b

theorem oldest?_eq (c : FragmentCache) :
    c.oldest? = (c.states.foldl older none).map Prod.fst := rfl

/-- Every round evicts a datagram. -/
def evict : ℕ → FragmentCache → FragmentMaintenance → FragmentCache × FragmentMaintenance
  | 0, c, m => (c, m)
  | rounds + 1, c, m =>
      if c.maxBytes < c.bytes ∨ c.maxDatagrams < c.states.length then
        match c.oldest? with
        | none => (c, m)
        | some key => evict rounds (c.removeKey key) { m with evicted := satAdd m.evicted 1 }
      else (c, m)

def tryComplete (c : FragmentCache) (key : FragmentKey) : FragmentCache × FragmentInsert :=
  match c.state? key with
  | none => (c, .pending)
  | some state =>
      match state.complete? with
      | none => (c, .pending)
      | some payload => (c.removeKey key, .complete payload state.wireBytes)

/-- The state of a datagram, which the first fragment makes. -/
def enter (c : FragmentCache) (now : ℕ) (key : FragmentKey) : FragmentCache × FragmentState :=
  match c.state? key with
  | some state => (c, { state with lastSeen := now })
  | none => ({ c with
      states := c.states ++ [(key, { lastSeen := now })]
      bytes := satAdd c.bytes fragmentDatagramOverhead }, { lastSeen := now })

def insert (c : FragmentCache) (now : ℕ) (key : FragmentKey) (offset : ℕ) (more : Bool)
    (payload : Bytes) (wireLen : ℕ) : FragmentCache × FragmentInsert × FragmentMaintenance :=
  let (c, maintenance) := c.maintenance now
  let finish := offset + payload.length
  -- the sum does not fit into the word
  if u64Max < finish then (c, .droppedInvalid, maintenance)
  else if 65535 < finish ∨ more = true ∧ (payload = [] ∨ payload.length % 8 ≠ 0) then
    (c.removeKey key, .droppedInvalid, maintenance)
  else
    let (c, state) := c.enter now key
    match state.declare more finish with
    | none => ((c.setState key state).removeKey key, .droppedInvalid, maintenance)
    | some state =>
        let c := c.setState key state
        match state.judge offset finish more payload with
        | .invalid => (c.removeKey key, .droppedInvalid, maintenance)
        | .overlap => (c.removeKey key, .droppedOverlap, maintenance)
        | .duplicate => ((c.tryComplete key).1, (c.tryComplete key).2, maintenance)
        | .new =>
            let c := { c.setState key (state.add offset more payload wireLen) with
              bytes := satAdd c.bytes (satAdd payload.length fragmentPieceOverhead) }
            match c.tryComplete key with
            | (c, .pending) =>
                let (c, maintenance) := evict (c.states.length + 1) c maintenance
                (c, .pending, maintenance)
            | (c, completed) => (c, completed, maintenance)

end FragmentCache

instance neZero_shards : NeZero 64 := ⟨by decide⟩

/-- The shards that all capture workers share.  The hash that chooses the shard is a
parameter, and what the upkeep removed is left out. -/
structure SharedFragmentCache where
  shardOf : FragmentKey → Fin 64
  shards : Fin 64 → FragmentCache

/-- Every shard has its share of the budget. -/
def SharedFragmentCache.new (shardOf : FragmentKey → Fin 64) (maxBytes maxDatagrams timeout : ℕ)
    (now : Fin 64 → ℕ) : SharedFragmentCache where
  shardOf := shardOf
  shards i := .new (max (maxBytes / 64) 65536) (max (maxDatagrams / 64) 1) timeout (now i)

def SharedFragmentCache.insert (c : SharedFragmentCache) (now : ℕ) (key : FragmentKey)
    (offset : ℕ) (more : Bool) (payload : Bytes) (wireLen : ℕ) :
    SharedFragmentCache × FragmentInsert :=
  let r := (c.shards (c.shardOf key)).insert now key offset more payload wireLen
  ({ c with shards := Function.update c.shards (c.shardOf key) r.1 }, r.2.1)

end Bazalt.Capture
